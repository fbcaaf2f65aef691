import Stencil.Proofs.Document.Part
import Stencil.Stream.Step

/-!
# Fallbacks of include elements

While an include element is read, the events of its fallbacks are kept, and those of all other children are left out.
When it has been read, what is kept is the content of the fallbacks among its children (`Stream.read_children`).
-/

open Stencil.Stream

namespace Stencil

namespace Part

/-- The content of a fallback. -/
def fallbackContent? : Part → Option (List Event)
  | element _ name _ children _ _ => if name.same fallbackName then some (eventsOf children) else none
  | leaf .. => none

/-- The content of the fallbacks among the children of an include element, if there are any. -/
def fallback? (ns : List Part) : Option (List Event) :=
  match ns.filterMap fallbackContent? with
  | [] => none
  | contents => some contents.flatten

end Part

namespace Stream

variable {p : Position} {as : Attributes}

mutual

/-- Inside of a fallback all events are kept. -/
theorem read_part_inside (n : Part) (p : Position) (as : Attributes) (d : Nat) (kept : List Event) :
    n.events.foldl Inclusion.read ⟨p, as, d + 2, true, some kept⟩ = ⟨p, as, d + 2, true, some (n.events.reverse ++ kept)⟩ := by
  cases n with
  | leaf e noStart noEnd =>
    rw [Part.events, List.foldl_cons, List.foldl_nil]
    cases e with
    | startTag => cases noStart
    | endTag => cases noEnd
    | _ => rfl
  | element q name attributes children r endName =>
    have opens : Inclusion.read ⟨p, as, d + 2, true, some kept⟩ (.startTag q name attributes) =
        ⟨p, as, d + 1 + 2, true, some (.startTag q name attributes :: kept)⟩ := by simp [Inclusion.read]
    have closes (kept : List Event) : Inclusion.read ⟨p, as, d + 1 + 2, true, some kept⟩ (.endTag r endName) =
        ⟨p, as, d + 2, true, some (.endTag r endName :: kept)⟩ := by simp [Inclusion.read]
    rw [Part.events, List.foldl_cons, List.foldl_append, opens, read_parts_inside children, List.foldl_cons, List.foldl_nil,
      closes]
    simp

theorem read_parts_inside (ns : List Part) (p : Position) (as : Attributes) (d : Nat) (kept : List Event) :
    (Part.eventsOf ns).foldl Inclusion.read ⟨p, as, d + 2, true, some kept⟩ =
      ⟨p, as, d + 2, true, some ((Part.eventsOf ns).reverse ++ kept)⟩ := by
  cases ns with
  | nil => rfl
  | cons n ns =>
    rw [Part.eventsOf, List.foldl_append, read_part_inside n, read_parts_inside ns, List.reverse_append, List.append_assoc]

end

mutual

/-- Inside of other elements nothing is kept. -/
theorem read_part_outside (n : Part) (p : Position) (as : Attributes) (d : Nat) (kept? : Option (List Event)) :
    n.events.foldl Inclusion.read ⟨p, as, d + 2, false, kept?⟩ = ⟨p, as, d + 2, false, kept?⟩ := by
  cases n with
  | leaf e noStart noEnd =>
    rw [Part.events, List.foldl_cons, List.foldl_nil]
    cases e with
    | startTag => cases noStart
    | endTag => cases noEnd
    | _ => rfl
  | element q name attributes children r endName =>
    have opens : Inclusion.read ⟨p, as, d + 2, false, kept?⟩ (.startTag q name attributes) =
        ⟨p, as, d + 1 + 2, false, kept?⟩ := by simp [Inclusion.read]
    have closes : Inclusion.read ⟨p, as, d + 1 + 2, false, kept?⟩ (.endTag r endName) = ⟨p, as, d + 2, false, kept?⟩ := by
      simp [Inclusion.read]
    rw [Part.events, List.foldl_cons, List.foldl_append, opens, read_parts_outside children, List.foldl_cons, List.foldl_nil,
      closes]

theorem read_parts_outside (ns : List Part) (p : Position) (as : Attributes) (d : Nat) (kept? : Option (List Event)) :
    (Part.eventsOf ns).foldl Inclusion.read ⟨p, as, d + 2, false, kept?⟩ = ⟨p, as, d + 2, false, kept?⟩ := by
  cases ns with
  | nil => rfl
  | cons n ns => rw [Part.eventsOf, List.foldl_append, read_part_outside n, read_parts_outside ns]

end

/-- The events kept so far, and those of one more child if that is a fallback. -/
def keepFallback (kept? : Option (List Event)) (n : Part) : Option (List Event) :=
  match n.fallbackContent? with
  | some inside => some (inside.reverse ++ kept?.getD [])
  | none => kept?

/-- Of a child of an include element, the content of a fallback is kept. -/
theorem read_child (n : Part) (p : Position) (as : Attributes) (kept? : Option (List Event)) :
    n.events.foldl Inclusion.read ⟨p, as, 1, false, kept?⟩ = ⟨p, as, 1, false, keepFallback kept? n⟩ := by
  cases n with
  | leaf e noStart noEnd =>
    rw [Part.events, List.foldl_cons, List.foldl_nil]
    cases e with
    | startTag => cases noStart
    | endTag => cases noEnd
    | _ => rfl
  | element q name attributes children r endName =>
    rw [Part.events, List.foldl_cons, List.foldl_append]
    cases fallback : name.same fallbackName with
    | true =>
      have opens : Inclusion.read ⟨p, as, 1, false, kept?⟩ (.startTag q name attributes) =
          ⟨p, as, 0 + 2, true, some (kept?.getD [])⟩ := by simp [Inclusion.read, fallback]
      rw [opens, read_parts_inside children]
      simp [Inclusion.read, keepFallback, Part.fallbackContent?, fallback]
    | false =>
      have opens : Inclusion.read ⟨p, as, 1, false, kept?⟩ (.startTag q name attributes) = ⟨p, as, 0 + 2, false, kept?⟩ := by
        simp [Inclusion.read, fallback]
      rw [opens, read_parts_outside children]
      simp [Inclusion.read, keepFallback, Part.fallbackContent?, fallback]

theorem foldl_keepFallback (ns : List Part) (kept : List Event) :
    ns.foldl keepFallback (some kept) = some ((ns.filterMap Part.fallbackContent?).flatten.reverse ++ kept) := by
  induction ns generalizing kept with
  | nil => rfl
  | cons n ns ih =>
    rw [List.foldl_cons, keepFallback, List.filterMap_cons]
    cases n.fallbackContent? with
    | none => exact ih kept
    | some inside =>
      refine (ih _).trans ?_
      simp

/-- What is kept of an include element is the content of its fallbacks. -/
theorem kept_eq_fallback (ns : List Part) : ns.foldl keepFallback none = (Part.fallback? ns).map List.reverse := by
  induction ns with
  | nil => rfl
  | cons n ns ih =>
    rw [List.foldl_cons, keepFallback, Part.fallback?, List.filterMap_cons]
    cases n.fallbackContent? with
    | none => exact ih
    | some inside =>
      refine (foldl_keepFallback ns _).trans ?_
      simp

/-- **When an include element has been read, what is kept is the content of its fallbacks.** -/
theorem read_children (ns : List Part) (p : Position) (as : Attributes) :
    (Part.eventsOf ns).foldl Inclusion.read (Inclusion.opened p as) = ⟨p, as, 1, false, (Part.fallback? ns).map List.reverse⟩ := by
  have starting (kept? : Option (List Event)) :
      (Part.eventsOf ns).foldl Inclusion.read ⟨p, as, 1, false, kept?⟩ = ⟨p, as, 1, false, ns.foldl keepFallback kept?⟩ := by
    induction ns generalizing kept? with
    | nil => rfl
    | cons n ns ih => rw [Part.eventsOf, List.foldl_append, read_child, ih, List.foldl_cons]
  rw [Inclusion.opened, starting, kept_eq_fallback]

end Stream

end Stencil
