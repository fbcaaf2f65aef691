import Stencil.Proofs.Document.Declarations
import Stencil.Proofs.Document.Part

/-!
# Tags among declarations

If tags and declarations pair up (`Event.PairsUp`), then the tags do so by themselves (`Event.PairsUp.nested`), and an
element leaves open what was open before it (`Part.encloseAll_element`).
-/

namespace Stencil

namespace Event

variable {brackets inner outer : List Bracket} {es : List Event}

/-- The number of open elements. -/
def elementsIn (brackets : List Bracket) : Nat :=
  brackets.countP fun
    | .element _ => true
    | .declaration .. => false

/-- If tags and declarations pair up, tags do. -/
theorem nest_of_encloseAll (h : encloseAll brackets es = some outer) :
    es.foldlM nest (elementsIn brackets) = some (elementsIn outer) := by
  induction es generalizing brackets with
  | nil =>
    cases h
    rfl
  | cons e es ih =>
    obtain ⟨inner, step, rest⟩ := encloseAll_cons_some h
    rw [List.foldlM_cons]
    refine Option.bind_eq_some_iff.2 ⟨elementsIn inner, ?_, ih rest⟩
    cases e with
    | startTag =>
      cases step
      exact congrArg some (List.countP_cons_of_pos rfl).symm
    | endTag p name =>
      rw [enclose_endTag step, elementsIn, List.countP_cons_of_pos rfl]
      rfl
    | startNamespace =>
      cases step
      exact congrArg some (List.countP_cons_of_neg (by simp)).symm
    | endNamespace =>
      obtain ⟨u, rfl⟩ := enclose_endNamespace step
      exact congrArg some (List.countP_cons_of_neg (by simp))
    | _ =>
      cases step
      rfl

theorem PairsUp.nested (h : PairsUp es) : Nested es := nest_of_encloseAll h

/-- What pairs up by itself does so inside of open brackets. -/
theorem PairsUp.encloseAll (h : PairsUp es) (brackets : List Bracket) : encloseAll brackets es = some brackets := by
  have frame {before after : List Bracket} {es : List Event} (h : Event.encloseAll before es = some after) :
      Event.encloseAll (before ++ brackets) es = some (after ++ brackets) := by
    induction es generalizing before with
    | nil =>
      cases h
      rfl
    | cons e es ih =>
      obtain ⟨inner, step, rest⟩ := encloseAll_cons_some h
      rw [Event.encloseAll, List.foldlM_cons, enclose_frame step]
      exact ih rest
  exact frame h

end Event

namespace Part

open Event

variable {brackets inner outer : List Bracket}

/-- Only declarations are open in an element, and then what is open around it. -/
def OpenIn (name : Text) (outer brackets : List Bracket) : Prop :=
  ∃ declared : List (Text × Text), brackets = declared.map (fun d => .declaration d.1 d.2) ++ .element name :: outer

theorem OpenIn.leaf {name : Text} {e : Event} (noStart : e.isStart = false) (noEnd : e.isEnd = false)
    (h : OpenIn name outer brackets) (step : enclose brackets e = some inner) : OpenIn name outer inner := by
  obtain ⟨declared, rfl⟩ := h
  cases e with
  | startTag => cases noStart
  | endTag => cases noEnd
  | startNamespace p pre uri =>
    cases step
    exact ⟨(pre, uri) :: declared, rfl⟩
  | endNamespace p pre =>
    obtain ⟨u, ends⟩ := enclose_endNamespace step
    cases declared with
    | nil => cases ends
    | cons d declared =>
      rw [List.map_cons, List.cons_append, List.cons.injEq] at ends
      exact ⟨declared, ends.2.symm⟩
  | _ =>
    cases step
    exact ⟨declared, rfl⟩

mutual

/-- A part that is no leaf leaves open what was open before it. -/
theorem encloseAll_part (n : Part) {brackets outer : List Bracket} (h : encloseAll brackets n.events = some outer) :
    (∃ e, n.events = [e] ∧ e.isStart = false ∧ e.isEnd = false) ∨ outer = brackets := by
  cases n with
  | leaf e noStart noEnd => exact .inl ⟨e, rfl, noStart, noEnd⟩
  | element p name as ns o endName =>
    rw [events] at h
    obtain ⟨inner, opens, h⟩ := encloseAll_cons_some h
    cases opens
    rw [encloseAll, List.foldlM_append] at h
    obtain ⟨inside, children, h⟩ := Option.bind_eq_some_iff.1 h
    obtain ⟨last, closes, rest⟩ := encloseAll_cons_some h
    cases rest
    obtain ⟨declared, rfl⟩ := encloseAll_children ns ⟨[], rfl⟩ children
    have ends := enclose_endTag closes
    cases declared with
    | nil =>
      rw [List.map_nil, List.nil_append, List.cons.injEq] at ends
      exact .inr ends.2.symm
    | cons d declared => cases ends

theorem encloseAll_children (ns : List Part) {name : Text} {brackets outer around : List Bracket}
    (isOpen : OpenIn name around brackets) (h : encloseAll brackets (eventsOf ns) = some outer) :
    OpenIn name around outer := by
  cases ns with
  | nil =>
    cases h
    exact isOpen
  | cons n ns =>
    rw [eventsOf, encloseAll, List.foldlM_append] at h
    obtain ⟨mid, first, rest⟩ := Option.bind_eq_some_iff.1 h
    refine encloseAll_children ns ?_ rest
    rcases encloseAll_part n first with ⟨e, single, noStart, noEnd⟩ | same
    · rw [single] at first
      obtain ⟨inner, step, last⟩ := encloseAll_cons_some first
      cases last
      exact isOpen.leaf noStart noEnd step
    · rwa [same]

end

/-- An element leaves open what was open before it. -/
theorem encloseAll_element {p : Position} {name : QName} {as : Attributes} {ns : List Part} {o : Position} {endName : QName}
    (h : encloseAll brackets (element p name as ns o endName).events = some outer) : outer = brackets := by
  rcases encloseAll_part _ h with ⟨e, single, noStart, -⟩ | same
  · rw [events] at single
    cases (List.cons.inj single).1
    cases noStart
  · exact same

end Part

end Stencil
