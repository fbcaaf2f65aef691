import Stencil.Proofs.Stream.Together

/-!
# Tidied streams

The last filter of a template makes one text of those that follow each other and tidies it
(`tidyFrom`). All other events come through as they are, and a text is held back only until the next of
them.
-/

open Stencil.Stream Stencil.Advance

namespace Stencil

/-- A text that is tidied, if there is one. -/
def tidyText (text? : Option (Position × Text)) : List Event := text?.toList.map fun (p, t) => .text p t.tidy

/-- Events with their texts merged and tidied, after a text so far. A text is lost if a failure follows. -/
def tidyFrom (stop? : Option Stop) (text? : Option (Position × Text)) : List Event → List Event
  | [] => if stop?.isNone then tidyText text? else []
  | .text p t :: es => tidyFrom stop? (some (addText text? p t)) es
  | e :: es => tidyText text? ++ e :: tidyFrom stop? none es

/-- The event is a text. -/
def Event.isText : Event → Bool
  | text .. => true
  | _ => false

theorem tidyFrom_cons {e : Event} (h : e.isText = false) (stop? : Option Stop) (text? : Option (Position × Text))
    (es : List Event) : tidyFrom stop? text? (e :: es) = tidyText text? ++ e :: tidyFrom stop? none es := by
  cases e with
  | text => cases h
  | _ => rfl

/-- Apart from texts, the events are those that were there before. -/
theorem mem_tidyFrom {stop? : Option Stop} {text? : Option (Position × Text)} {es : List Event} {e : Event}
    (h : e ∈ tidyFrom stop? text? es) : e.isText = true ∨ e ∈ es := by
  have held {text? : Option (Position × Text)} (h : e ∈ tidyText text?) : e.isText = true := by
    obtain ⟨pair, -, rfl⟩ := List.mem_map.1 h
    rfl
  induction es generalizing text? with
  | nil =>
    rw [tidyFrom] at h
    split at h
    · exact .inl (held h)
    · cases h
  | cons x es ih =>
    by_cases isText : x.isText = true
    · cases x with
      | text p t => exact (ih h).imp_right (List.mem_cons_of_mem _)
      | _ => cases isText
    · rw [tidyFrom_cons (by simpa using isText)] at h
      rcases List.mem_append.1 h with h | h
      · exact .inl (held h)
      · rcases List.mem_cons.1 h with rfl | h
        · exact .inr List.mem_cons_self
        · exact (ih h).imp_right (List.mem_cons_of_mem _)

namespace Stream

variable {k : Nat} {u v w : Stream} {s t r : Store} {es : List Event} {stop? : Option Stop}
  {text? : Option (Position × Text)}

theorem tidied_skip (text? : Option (Position × Text)) (h : step k u s = .skip v t) :
    step k (.tidied none text? u) s = .skip (.tidied none text? v) t := by
  rw [step, h]
  rfl

/-- An event that is no text is handed on after the text so far. -/
theorem run_tidied_event (text? : Option (Position × Text)) {e : Event} (other : e.isText = false) (h : step k u s = .yield e v t) :
    Run k (.tidied none text? u) s (tidyText text? ++ [e]) (.tidied none none v) t := by
  cases text? with
  | none =>
    have next : step k (.tidied none none u) s = .yield e (.tidied none none v) t := by
      rw [step, h]
      cases e with
      | text => cases other
      | _ => rfl
    exact .single next
  | some text =>
    have next : step k (.tidied none (some text) u) s = .yield (.text text.1 text.2.tidy) (.tidied (some e) none v) t := by
      rw [step, h]
      cases e with
      | text => cases other
      | _ => rfl
    exact .yield next (.single rfl)

theorem tidied_text {p : Position} {b : Text} (text? : Option (Position × Text)) (h : step k u s = .yield (.text p b) v t) :
    step k (.tidied none text? u) s = .skip (.tidied none (some (addText text? p b)) v) t := by
  rw [step, h]
  rfl

/-- At the end the text so far is handed on, unless it is lost. -/
theorem completes_tidied_end (text? : Option (Position × Text)) (h : step k u s = final stop? w r)
    (stays : stop? = none → step k w r = .done w r) :
    Completes k (.tidied none text? u) s (tidyFrom stop? text? []) stop? (.tidied none none w) r := by
  cases stop? with
  | some why =>
    have next : step k (.tidied none text? u) s = .fail why (.tidied none none w) r := by
      rw [step, h]
      rfl
    exact ⟨_, _, .refl _ _, next⟩
  | none =>
    have last : ∀ {x : Stream} {q : Store}, step k x q = .done w r →
        step k (.tidied none none x) q = .done (.tidied none none w) r := fun h => by
      rw [step, h]
      rfl
    cases text? with
    | none => exact ⟨_, _, .refl _ _, last h⟩
    | some text =>
      have next : step k (.tidied none (some text) u) s = .yield (.text text.1 text.2.tidy) (.tidied none none w) r := by
        rw [step, h]
        rfl
      exact ⟨_, _, .single next, last (stays rfl)⟩

/-- **A tidied stream comes to the same as its source**, with the texts merged and tidied. -/
theorem Completes.tidied (h : Completes k u s es stop? w r) (stays : stop? = none → step k w r = .done w r)
    (text? : Option (Position × Text)) :
    Completes k (.tidied none text? u) s (tidyFrom stop? text? es) stop? (.tidied none none w) r := by
  obtain ⟨x, q, run, last⟩ := h
  induction run generalizing text? with
  | refl => exact completes_tidied_end text? last stays
  | skip first _ ih => exact (ih text? last).after (.silent (tidied_skip text? first))
  | @yield u v _ s t _ e es first _ ih =>
    by_cases isText : e.isText = true
    · obtain ⟨p, b, rfl⟩ : ∃ p b, e = .text p b := by
        cases e with
        | text p b => exact ⟨p, b, rfl⟩
        | _ => cases isText
      exact (ih (some (addText text? p b)) last).after (.silent (tidied_text text? first))
    · have other : e.isText = false := by simpa using isText
      have whole := (ih none last).after (run_tidied_event text? other first)
      rw [tidyFrom_cons other]
      simpa using whole

/-! ## Templates -/

/-- An expansion that has ended is given up. -/
theorem ended_expanded {t : Template} {last : Position} (h : Completes k (.expanded t last u) s es none w r) :
    w = .empty := by
  obtain ⟨x, q, run, ends⟩ := h
  generalize start : Stream.expanded t last u = y at run
  induction run generalizing last u with
  | refl =>
    subst start
    change stepExpanded t last (step k u _) = .done w r at ends
    generalize step k u _ = a at ends
    unfold stepExpanded at ends
    split at ends <;> cases ends
    rfl
  | skip first _ ih | yield first _ ih =>
    subst start
    change stepExpanded t last (step k u _) = _ at first
    generalize step k u _ = a at first
    unfold stepExpanded at first
    split at first <;> cases first <;> exact ih ends rfl

/-- The events of a template whose texts are tidied last. -/
theorem Completes.expansion {t : Template} (last : t.postFilters = [.tidy])
    (h : Completes k (.expanded t .zero t.source) s es stop? w r) :
    Completes k t.expansion s (tidyFrom stop? none es) stop? (.tidied none none w) r := by
  rw [Template.expansion, last]
  refine h.tidied ?_ none
  rintro rfl
  rw [ended_expanded h]
  rfl

end Stream

end Stencil
