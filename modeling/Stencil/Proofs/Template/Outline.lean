import Stencil.Proofs.Document.Declarations
import Stencil.Proofs.Template.Compilation

/-!
# The outline of a template

Compiling turns elements with directives into single events and texts into pieces, but the tags and the
declarations stay in their order. Of the declarations, those of the directive namespace are dropped, and the ends that
name a prefix which is noted for one of them (`Compile.outline_template`).
-/

namespace Stencil

namespace Event

mutual

/-- The tags, without their attributes, and declarations in the event, in order. -/
def outline : Event → List Event
  | sub _ _ es => outlineAll es
  | startTag p name _ => [startTag p name []]
  | endTag p name => [endTag p name]
  | startNamespace p pre uri => [startNamespace p pre uri]
  | endNamespace p pre => [endNamespace p pre]
  | _ => []

def outlineAll : List Event → List Event
  | [] => []
  | e :: es => e.outline ++ outlineAll es

end

theorem outlineAll_append (es fs : List Event) : outlineAll (es ++ fs) = outlineAll es ++ outlineAll fs := by
  induction es with
  | nil => rfl
  | cons e es ih => simp only [List.cons_append, outlineAll, ih, List.append_assoc]

theorem outlineAll_single (e : Event) : outlineAll [e] = e.outline := by
  simp only [outlineAll, List.append_nil]

theorem outlineAll_eq_nil {es : List Event} (h : ∀ e ∈ es, e.outline = []) : outlineAll es = [] := by
  induction es with
  | nil => rfl
  | cons e es ih =>
    obtain ⟨first, rest⟩ := List.forall_mem_cons.1 h
    simp only [outlineAll, first, ih rest, List.append_nil]

/-- Tags and declarations pair up if those of the outline do. -/
theorem encloseAll_outline {es : List Event} (plain : ∀ p ds inside, .sub p ds inside ∉ es) (brackets : List Bracket) :
    encloseAll brackets (outlineAll es) = encloseAll brackets es := by
  induction es generalizing brackets with
  | nil => rfl
  | cons e es ih =>
    have rest := ih fun p ds inside member => plain p ds inside (List.mem_cons_of_mem _ member)
    have first : encloseAll brackets e.outline = enclose brackets e := by
      have single (d : Event) : encloseAll brackets [d] = enclose brackets d := by
        rw [encloseAll, List.foldlM_cons]
        cases enclose brackets d <;> rfl
      cases e with
      | sub p ds inside => exact absurd List.mem_cons_self (plain p ds inside)
      | startTag | endTag | startNamespace | endNamespace => exact single _
      | _ => rfl
    rw [outlineAll, encloseAll, List.foldlM_append]
    change (encloseAll brackets e.outline).bind _ = _
    rw [first, encloseAll, List.foldlM_cons]
    exact congrArg (enclose brackets e).bind (funext rest)

end Event

open Event

namespace Compile

variable {t : Target} {s s' : State}

theorem outline_events_push (s : State) (e : Event) :
    outlineAll (s.push e).events = outlineAll s.events ++ e.outline := by
  rw [State.events_eq, State.events_eq, ← outlineAll_single, ← outlineAll_append]
  simp [State.push]

theorem outline_textEvents (p : Position) (text : Text) : outlineAll (textEvents p text) = [] := by
  refine outlineAll_eq_nil fun e he => ?_
  obtain ⟨f, -, rfl⟩ := List.mem_map.1 he
  cases f <;> rfl

theorem outline_openElement (s : State) (tag : Event) (readings : List DirectiveReading) :
    outlineAll (s.openElement tag readings).events = outlineAll s.events ++ tag.outline := by
  rw [State.events_eq, State.events_eq, ← outlineAll_single, ← outlineAll_append]
  unfold State.openElement
  dsimp only
  split <;> simp [State.push]

/-- An element that becomes one event keeps its outline. -/
theorem outline_closeElement (s : State) (tag : Event) :
    outlineAll (s.closeElement tag).events = outlineAll s.events ++ tag.outline := by
  unfold State.closeElement
  split
  · rename_i c cs carriers level
    rw [State.events_eq, State.events_eq, ← outlineAll_single, ← outlineAll_append]
    simp [carriers, outlineAll_append, outlineAll, outline]
  · exact outline_events_push s tag

/-- One event adds itself to the outline, unless it is noted as one of the directive namespace. -/
theorem outline_step {e : Event} {index : Nat} (h : step t s (e, index) = .ok s') :
    s'.prefixes = note List.cons Template.directiveNamespace s.prefixes e ∧
      outlineAll s'.events =
        outlineAll s.events ++ (if isNoted Template.directiveNamespace s.prefixes e then [] else e.outline) := by
  cases e with
  | startNamespace p pre uri =>
    cases h
    cases own : uri == Template.directiveNamespace with
    | true =>
      simp only [note, isNoted, own, if_true, List.append_nil]
      exact ⟨trivial, rfl⟩
    | false =>
      simp only [note, isNoted, own]
      exact ⟨rfl, outline_events_push s _⟩
  | endNamespace p pre =>
    cases h
    cases noted : s.prefixes.contains pre with
    | true =>
      simp only [note, isNoted, noted, if_true, List.append_nil]
      exact ⟨trivial, rfl⟩
    | false =>
      have absent : pre ∉ s.prefixes := by simpa using noted
      simp only [note, isNoted, noted, List.erase_of_not_mem absent]
      exact ⟨rfl, outline_events_push s _⟩
  | startTag p name attributes =>
    obtain ⟨readings, -, rfl⟩ := step_startTag_ok.1 h
    refine ⟨?_, outline_openElement s (.startTag p name (ordinaryAttributes attributes)) readings⟩
    unfold State.openElement
    dsimp only
    split <;> rfl
  | endTag p name =>
    cases h
    refine ⟨?_, outline_closeElement s (.endTag p name)⟩
    unfold State.closeElement
    split <;> rfl
  | text p text =>
    cases h
    refine ⟨rfl, ?_⟩
    rw [State.events_eq, State.events_eq]
    simp only [List.reverse_append, List.reverse_reverse, outlineAll_append, outline_textEvents, List.append_nil]
    simp [isNoted, outline]
  | _ =>
    cases h
    exact ⟨rfl, outline_events_push s _⟩

theorem outline_run {es : List Event} {index : Nat} (h : run t s es index = .ok s') :
    outlineAll s'.events =
      outlineAll s.events ++ outlineAll (dropNoted List.cons Template.directiveNamespace s.prefixes es) := by
  induction es generalizing s index with
  | nil =>
    cases h
    exact (List.append_nil _).symm
  | cons e es ih =>
    obtain ⟨mid, first, rest⟩ := run_cons_ok.1 h
    obtain ⟨prefixes, grown⟩ := outline_step first
    rw [ih rest, grown, prefixes, dropNoted, List.append_assoc]
    split
    · rfl
    · rw [outlineAll]

/-- **Compiling drops the events that are noted as ones of the directive namespace**, and keeps all other tags and
declarations in order. -/
theorem outline_template {es : List Event} {m : Template} (h : template t es = .ok m) :
    outlineAll m.events = outlineAll (dropNoted List.cons Template.directiveNamespace [] es) := by
  obtain ⟨s, read, rfl⟩ := template_ok h
  exact outline_run read

end Compile

end Stencil
