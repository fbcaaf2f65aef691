import Stencil.Proofs.Stream.Scope

/-!
# Streams at their end

A consumer may ask again when a stream has ended, as a filter does that had a text to hand on first. The stream stays
at its end then (`Stream.step_of_done`): asking again changes neither the stream nor the store.
-/

open Stencil.Stream Stencil.Advance

namespace Stencil

/-- A replay stays at its end. -/
theorem Replay.next_of_ended {q q' : Replay} {c c' : Context} (h : q.next c = (none, q', c')) : q'.next c' = (none, q', c') := by
  cases q with
  | plain es | waiting f es | running d es =>
    cases es <;> cases h
    rfl
  | finished =>
    cases h
    rfl

namespace Stream

variable {k : Nat} {u w : Stream} {s r : Store} {a : Advance}

/-! ## Steps that end no stream -/

theorem startIteration_ne_done (targets : List Text) (item : Value) (items : List Value) (body? : Option (List Event)) :
    startIteration targets item items body? u s ≠ .done w r := by
  unfold startIteration
  grind

theorem mergeInto_ne_done (e : Expression) (first : Event) : mergeInto k e first u s ≠ .done w r := by
  unfold mergeInto
  grind

theorem insert_ne_done (filename : Text) (prefixes : List Text) (i : Inclusion) : insert filename prefixes i u s ≠ .done w r := by
  unfold insert fallBack
  grind

theorem complete_ne_done (d : Directive) (rest : List Directive) (es : List Event) : complete d rest es u s ≠ .done w r := by
  unfold complete drop proceed
  grind

theorem applyDirective_ne_done (d : Directive) (rest : List Directive) : applyDirective k d rest u s ≠ .done w r := by
  unfold applyDirective test drop refuse proceed
  grind [complete_ne_done]

theorem evaluateEvent_ne_done (e : Event) : evaluateEvent k e u s ≠ .done w r := by
  unfold evaluateEvent
  grind

theorem testStrip_ne_done (test : Option Expression) : testStrip k test u s ≠ .done w r := by
  unfold testStrip
  grind

theorem stepMatching_ne_done (path : Path) (body : BodyId) (openElements : List Event) (p : Position) (depth : Nat)
    (matched : List Event) : stepMatching path body openElements p depth matched a ≠ .done w r := by
  unfold stepMatching
  grind

theorem stepIncluding_ne_done (filename : Text) (prefixes : List Text) (i : Inclusion) :
    stepIncluding filename prefixes i a ≠ .done w r := by
  unfold stepIncluding
  grind [insert_ne_done]

/-! ## Steps that may -/

/-- What hands on the steps of another stream ends where that does. -/
theorem of_map_done {wrap : Stream → Stream} (h : a.map wrap = .done w r) : ∃ v, a = .done v r ∧ w = wrap v := by
  cases a <;> cases h
  exact ⟨_, rfl, rfl⟩

theorem stepInserting_ne_done (filename : Text) (prefixes : List Text) (indentation : Nat) :
    stepInserting filename prefixes indentation u a ≠ .done w r := by
  intro h
  unfold stepInserting at h
  split at h
  · cases h
  · cases h
  · rename_i other
    obtain ⟨v, ends, -⟩ := of_map_done h
    exact other _ _ ends

theorem of_stepContent_done {e : Expression} {phase : ContentPhase} (h : stepContent e phase a = .done w r) :
    ∃ v, w = .ended v := by
  unfold stepContent at h
  grind

theorem of_stepStrip_done {test : Option Expression} {phase : StripPhase} (h : stepStrip test phase a = .done w r) :
    ∃ v, w = .ended v := by
  unfold stepStrip at h
  grind

theorem of_stepTidied_done {text? : Option (Position × Text)} (h : stepTidied text? a = .done w r) :
    ∃ v, a = .done v r ∧ w = .tidied none none v := by
  unfold stepTidied at h
  grind

theorem of_stepSubstituted_done {path : Path} {body : BodyId} {openElements : List Event}
    (h : stepSubstituted path body openElements a = .done w r) :
    ∃ v, a = .done v r ∧ w = .substituted path body openElements v := by
  unfold stepSubstituted at h
  split at h
  · grind
  · exact of_map_done h

theorem of_stepIncluded_done {filename : Text} {prefixes : List Text} (h : stepIncluded filename prefixes a = .done w r) :
    ∃ v, a = .done v r ∧ w = .included filename prefixes v := by
  unfold stepIncluded at h
  split at h
  · grind
  · grind
  · grind
  · exact of_map_done h

theorem of_stepExpanded_done {t : Template} {last : Position} (h : stepExpanded t last a = .done w r) : w = .empty := by
  unfold stepExpanded at h
  grind

theorem setReplay_setReplay (s : Store) (id : Nat) (q q' : Replay) : (s.setReplay id q).setReplay id q' = s.setReplay id q' := by
  simp [Store.setReplay]

/-- A stream that is a value is kept at its end. -/
theorem stepShared_of_done {id : Nat} (h : stepShared id s = .done w r) : w = .shared id ∧ stepShared id r = .done w r := by
  unfold stepShared at h
  split at h
  · cases h
  · rename_i q c next
    have left : (s.setReplay id q).replay id = q := by
      by_cases there : id < s.replays.size
      · rw [Store.replay_setReplay q there, if_pos rfl]
      · have absent : s.replay id = .finished := by simp [Store.replay, there]
        rw [absent] at next
        cases next
        simp [Store.replay, Store.setReplay, there]
    have ended : stepShared id { s.setReplay id q with context := c } =
        .done (.shared id) { (s.setReplay id q).setReplay id q with context := c } := by
      have again : (Store.replay { s.setReplay id q with context := c } id).next c = (none, q, c) := by
        change ((s.setReplay id q).replay id).next c = _
        rw [left, Replay.next_of_ended next]
      simp only [stepShared, again]
      rfl
    cases h
    refine ⟨rfl, ended.trans ?_⟩
    rw [setReplay_setReplay]

/-! ## How each stream ends -/

theorem append_ne_done (first rest : Stream) : step k (append first rest) s ≠ .done w r := by
  intro h
  rw [step] at h
  split at h
  · cases h
  · rename_i other
    obtain ⟨v, ends, -⟩ := of_map_done h
    exact other _ _ ends

theorem of_loop_done {targets : List Text} {items : Expression} (h : step k (loop targets items u) s = .done w r) :
    w = .ended u := by
  change startLoop k targets items u s = _ at h
  unfold startLoop at h
  grind

theorem gathering_ne_done (targets : List Text) (items : List Value) (body : List Event) (u : Stream) :
    step k (gathering targets items body u) s ≠ .done w r := by
  rw [step]
  grind

theorem of_looping_done {targets : List Text} {items : List Value} {body? : Option (List Event)}
    {current? : Option (Nat × List Event)} (h : step k (looping targets items body? current? u) s = .done w r) :
    w = .looping targets [] body? none u := by
  change stepLoop targets items body? current? u s = _ at h
  unfold stepLoop at h
  split at h
  · cases h
  · cases h
  · cases h
    rfl
  · exact (startIteration_ne_done _ _ _ _ h).elim

theorem of_attributes_done {e : Expression} (h : step k (attributes e u) s = .done w r) : step k u s = .done w r := by
  rw [step] at h
  split at h
  · exact (mergeInto_ne_done _ _ h).elim
  · cases h
  · exact h

theorem of_content_done {e : Expression} {phase : ContentPhase} (h : step k (content e phase u) s = .done w r) :
    ∃ v, w = .ended v := by
  cases phase with
  | expression p => cases h
  | start | last latest? => exact of_stepContent_done (show stepContent e _ (step k u s) = _ from h)

theorem of_replaced_done {e : Expression} (h : step k (replaced e u) s = .done w r) : ∃ v, w = .ended v := by
  rw [step] at h
  split at h
  · cases h
  · cases h
  · obtain ⟨v, -, rfl⟩ := of_map_done h
    exact ⟨v, rfl⟩

theorem of_strip_done {test : Option Expression} {phase : StripPhase} (h : step k (strip test phase u) s = .done w r) :
    ∃ v, w = .ended v := by
  cases phase with
  | untested => exact (testStrip_ne_done _ h).elim
  | first | second | holding => exact of_stepStrip_done (show stepStrip test _ (step k u s) = _ from h)

theorem directed_ne_done (directives : List Directive) (read : List Event) (u : Stream) :
    step k (directed directives read u) s ≠ .done w r := by
  intro h
  cases directives with
  | nil => cases h
  | cons d rest =>
    rw [step] at h
    split at h
    · split at h
      · cases h
      · cases h
      · exact complete_ne_done _ _ _ h
      · cases h
    · exact applyDirective_ne_done _ _ h

theorem of_evaluated_done (h : step k (evaluated u) s = .done w r) : w = .empty := by
  rw [step] at h
  split at h
  · exact (evaluateEvent_ne_done _ h).elim
  · cases h
    rfl
  · rename_i other
    obtain ⟨v, ends, -⟩ := of_map_done h
    exact absurd ends (other _ _)

theorem of_tidied_done {pending? : Option Event} {text? : Option (Position × Text)}
    (h : step k (tidied pending? text? u) s = .done w r) : ∃ v, step k u s = .done v r ∧ w = .tidied none none v := by
  cases pending? with
  | some e => cases h
  | none => exact of_stepTidied_done (show stepTidied text? (step k u s) = _ from h)

/-- **A stream that has ended stays at its end.** -/
theorem step_of_done (h : step k u s = .done w r) : step k w r = .done w r := by
  induction u generalizing s w r with
  | replay q =>
    change stepReplay q .replay s = _ at h
    unfold stepReplay at h
    split at h
    · cases h
    · rename_i q' c next
      cases h
      simp only [step, stepReplay, Replay.next_of_ended next]
  | shared id =>
    obtain ⟨rfl, again⟩ := stepShared_of_done h
    exact again
  | append first rest => exact (append_ne_done first rest h).elim
  | ended u =>
    cases h
    rfl
  | loop targets items u =>
    obtain rfl := of_loop_done h
    rfl
  | gathering targets items body u => exact (gathering_ne_done targets items body u h).elim
  | looping targets items body? current? u =>
    obtain rfl := of_looping_done h
    rfl
  | attributes e u ih => exact ih (of_attributes_done h)
  | content e phase u =>
    obtain ⟨v, rfl⟩ := of_content_done h
    rfl
  | replaced e u =>
    obtain ⟨v, rfl⟩ := of_replaced_done h
    rfl
  | strip test phase u =>
    obtain ⟨v, rfl⟩ := of_strip_done h
    rfl
  | directed directives read u => exact (directed_ne_done directives read u h).elim
  | evaluated u =>
    obtain rfl := of_evaluated_done h
    rfl
  | tidied pending? text? u ih =>
    obtain ⟨v, ends, rfl⟩ := of_tidied_done h
    rw [step, ih ends]
    rfl
  | substituted path body openElements u ih =>
    obtain ⟨v, ends, rfl⟩ := of_stepSubstituted_done h
    rw [step, ih ends]
    rfl
  | matching path body openElements p depth matched u => exact (stepMatching_ne_done _ _ _ _ _ _ h).elim
  | included filename prefixes u ih =>
    obtain ⟨v, ends, rfl⟩ := of_stepIncluded_done h
    rw [step, ih ends]
    rfl
  | including filename prefixes i u => exact (stepIncluding_ne_done _ _ _ h).elim
  | inserting filename prefixes indentation inserted u => exact (stepInserting_ne_done _ _ _ h).elim
  | expanded t last u =>
    obtain rfl := of_stepExpanded_done h
    rfl

end Stream

end Stencil
