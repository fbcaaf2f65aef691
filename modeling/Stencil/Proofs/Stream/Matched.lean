import Stencil.Proofs.Stream.Ahead
import Stencil.Stream.Step

/-!
# Steps from a store and from one that is ahead of it

Two steps of one stream are matched if they come to the same, with one store still ahead of the other.
One lemma for each way in which a stream gets on, the application of directives apart.
-/

namespace Stencil

variable {known : Known} {full : BodyId → Prop} {bodies : List (BodyId × List Event)} {k : Nat} {u v : Stream}
  {s r : Store} {e : Event}

/-- The state after a step: all that is faithful has stayed so, and nothing that was captured is lost. -/
structure Stream.After (known : Known) (full : BodyId → Prop) (bodies : List (BodyId × List Event)) (u : Stream)
    (r : Store) : Prop where
  stream : u.Faithful known r.full
  ahead : Store.Ahead known bodies r
  grown : ∀ b, full b → r.full b

namespace Stream

/-- Another stream in the same store. -/
theorem After.change (h : After known full bodies u r) (faithful : v.Faithful known r.full) :
    After known full bodies v r := ⟨faithful, h.ahead, h.grown⟩

/-- Values that were at hand before the step. -/
theorem After.items (h : After known full bodies u r) {vs : List Value}
    (made : ∀ v ∈ vs, v.From (.callable known full)) : ∀ v ∈ vs, v.From (.callable known r.full) :=
  fun v hv => (made v hv).mono (Stock.callable_mono h.grown)

/-- Another stream that was there before the step. -/
theorem After.other (h : After known full bodies u r) (faithful : v.Faithful known full) : v.Faithful known r.full :=
  faithful.mono h.grown

/-- Nothing has been captured in between. -/
theorem After.next (h : After known full bodies u s) (same : r.bodies = s.bodies) (ahead : Store.Ahead known bodies r) :
    After known full bodies u r := by
  have full : r.full = s.full := Store.full_congr same
  exact ⟨full ▸ h.stream, ahead, full ▸ h.grown⟩

theorem After.close (h : After known full bodies u r) (faithful : v.Faithful known r.full) :
    After known full bodies v (u.close r) :=
  (h.change faithful).next (bodies_close u r) (h.ahead.close u)

end Stream

open Store

namespace Advance

/-- The two steps come to the same, the first one in a store that is ahead of that of the second one. -/
inductive Matched (known : Known) (full : BodyId → Prop) : Advance → Advance → Prop
  | yield {bodies : List (BodyId × List Event)} {e : Event} {u : Stream} {r : Store} (event : e.Faithful known)
      (after : Stream.After known full bodies u r) : Matched known full (.yield e u (r.withBodies bodies)) (.yield e u r)
  | skip {bodies : List (BodyId × List Event)} {u : Stream} {r : Store} (after : Stream.After known full bodies u r) :
      Matched known full (.skip u (r.withBodies bodies)) (.skip u r)
  | done {bodies : List (BodyId × List Event)} {u : Stream} {r : Store} (after : Stream.After known full bodies u r) :
      Matched known full (.done u (r.withBodies bodies)) (.done u r)
  | fail {bodies : List (BodyId × List Event)} {why : Stop} {u : Stream} {r : Store}
      (after : Stream.After known full bodies u r) : Matched known full (.fail why u (r.withBodies bodies)) (.fail why u r)

end Advance

open Advance

/-- An expression has the same value in both stores, or fails alike. -/
theorem eval_ahead (k : Nat) (h : Stream.After known full bodies u s) (x : Expression) :
    (∃ why, x.eval k (s.withBodies bodies) = .error why ∧ x.eval k s = .error why) ∨
      ∃ v r, x.eval k (s.withBodies bodies) = .ok (v, r.withBodies bodies) ∧ x.eval k s = .ok (v, r) ∧
        Stream.After known full bodies u r ∧ v.From (.callable known r.full) := by
  have twins := x.eval_twins k (allows_ahead known bodies s) ⟨rfl, h.ahead, rfl⟩
  generalize x.eval k (s.withBodies bodies) = a, x.eval k s = b at twins
  cases twins with
  | error why => exact .inl ⟨why, rfl, rfl⟩
  | @ok v _ r related made =>
    obtain ⟨rfl, ahead, same⟩ := related
    exact .inr ⟨v, r, rfl, rfl, h.next same ahead, full_congr same ▸ made⟩

theorem evalAttributes_ahead (k : Nat) (h : Stream.After known full bodies u s) (as : Attributes) :
    (∃ why, as.eval k (s.withBodies bodies) = .error why ∧ as.eval k s = .error why) ∨
      ∃ as' r, as.eval k (s.withBodies bodies) = .ok (as', r.withBodies bodies) ∧ as.eval k s = .ok (as', r) ∧
        Stream.After known full bodies u r := by
  have twins := as.eval_twins k (allows_ahead known bodies s) ⟨rfl, h.ahead, rfl⟩
  generalize as.eval k (s.withBodies bodies) = a, as.eval k s = b at twins
  cases twins with
  | error why => exact .inl ⟨why, rfl, rfl⟩
  | @ok as' _ r related =>
    obtain ⟨rfl, ahead, same⟩ := related
    exact .inr ⟨as', r, rfl, rfl, h.next same ahead⟩

namespace Stream

/-! ## Replays -/

theorem matched_stepReplay {q : Replay} (h : After known full bodies (.replay q) s) :
    Matched known full (stepReplay q .replay (s.withBodies bodies)) (stepReplay q .replay s) := by
  obtain ⟨event, replay, context⟩ := faithful_next h.stream h.ahead.faithful.context
  unfold stepReplay
  rw [show (s.withBodies bodies).context = s.context from rfl]
  generalize q.next s.context = next at event replay context
  obtain ⟨e?, q', c⟩ := next
  have after : After known full bodies (.replay q') { s with context := c } :=
    ⟨replay, h.ahead.next rfl (h.ahead.faithful.withContext context), h.grown⟩
  cases e? with
  | none => exact .done after
  | some e => exact .yield (event e rfl) after

theorem matched_stepShared {id : Nat} (h : After known full bodies (.shared id) s) :
    Matched known full (stepShared id (s.withBodies bodies)) (stepShared id s) := by
  obtain ⟨event, replay, context⟩ := faithful_next (h.ahead.faithful.replay id h.stream) h.ahead.faithful.context
  unfold stepShared
  rw [show (s.withBodies bodies).context = s.context from rfl,
    show (s.withBodies bodies).replay id = s.replay id from rfl]
  generalize (s.replay id).next s.context = next at event replay context
  obtain ⟨e?, q, c⟩ := next
  have after : After known full bodies (.shared id) { s.setReplay id q with context := c } :=
    ⟨h.stream, h.ahead.next rfl ((h.ahead.faithful.setReplay id fun _ => replay).withContext context), h.grown⟩
  cases e? with
  | none => exact .done after
  | some e => exact .yield (event e rfl) after

/-! ## Loops -/

theorem matched_startLoop (targets : List Text) (items : Expression) (h : After known full bodies u s) :
    Matched known full (startLoop k targets items u (s.withBodies bodies)) (startLoop k targets items u s) := by
  unfold startLoop
  rcases eval_ahead k h items with ⟨why, first, second⟩ | ⟨v, r, first, second, after, made⟩
  · rw [first, second]
    exact .fail (h.change h.stream)
  · rw [first, second]
    dsimp only
    by_cases nothing : v.isNull = true
    · rw [if_pos nothing, if_pos nothing]
      exact .done (after.change after.stream)
    · rw [if_neg nothing, if_neg nothing]
      cases listed : v.items with
      | error e => exact .fail (after.change after.stream)
      | ok vs => exact .skip (after.change ⟨made.items listed, trivial, after.stream⟩)

theorem matched_startIteration {targets : List Text} {item : Value} {items : List Value} {body? : Option (List Event)}
    (h : After known full bodies (.looping targets (item :: items) body? none u) s) :
    Matched known full (startIteration targets item items body? u (s.withBodies bodies))
      (startIteration targets item items body? u s) := by
  obtain ⟨values, body, -, stream⟩ := h.stream
  obtain ⟨first, rest⟩ := List.forall_mem_cons.1 values
  unfold startIteration
  cases bound : loopFrame targets item with
  | error e => exact .fail (h.change ⟨rest, body, by simp, stream⟩)
  | ok frame =>
    have pushed : Ahead known bodies (s.pushFrame frame) :=
      h.ahead.next rfl (h.ahead.faithful.pushFrame (loopFrame_from first bound))
    have after : ∀ es, Event.AllFaithful known es → After known full bodies
        (.looping targets items body? (some ((s.pushFrame frame).context.depth, es)) u) (s.pushFrame frame) :=
      fun es events => ⟨⟨rest, body, by simpa using events, stream⟩, pushed, h.grown⟩
    cases body? with
    | none => exact .fail (after [] trivial)
    | some es => exact .skip (after es (body es rfl))

theorem matched_stepLoop {targets : List Text} {items : List Value} {body? : Option (List Event)}
    {current? : Option (Nat × List Event)} (h : After known full bodies (.looping targets items body? current? u) s) :
    Matched known full (stepLoop targets items body? current? u (s.withBodies bodies))
      (stepLoop targets items body? current? u s) := by
  obtain ⟨values, body, current, stream⟩ := h.stream
  cases current? with
  | some c =>
    obtain ⟨depth, es⟩ := c
    have events : Event.AllFaithful known es := current _ rfl
    cases es with
    | nil =>
      have released : Ahead known bodies (s.releaseFrom depth) :=
        h.ahead.next rfl (h.ahead.faithful.releaseFrom depth)
      have after : After known full bodies (.looping targets items body? none u) (s.releaseFrom depth) :=
        ⟨⟨values, body, by simp, stream⟩, released, h.grown⟩
      exact .skip after
    | cons e es => exact .yield events.1 (h.change ⟨values, body, by simpa using events.2, stream⟩)
  | none =>
    cases items with
    | nil => exact .done h
    | cons item items => exact matched_startIteration h

/-! ## Attributes and tags of an element -/

theorem matched_mergeInto (x : Expression) (event : e.Faithful known) (h : After known full bodies u s) :
    Matched known full (mergeInto k x e u (s.withBodies bodies)) (mergeInto k x e u s) := by
  cases e with
  | startTag p name as =>
    unfold mergeInto
    rcases eval_ahead k h x with ⟨why, first, second⟩ | ⟨v, r, first, second, after, -⟩
    · simp only [first, second]
      exact .fail h
    · simp only [first, second]
      by_cases truth : v.isTrue = true
      · rw [if_pos truth, if_pos truth]
        cases Attributes.merge as v with
        | error e => exact .fail after
        | ok as => exact .yield trivial after
      · rw [if_neg truth, if_neg truth]
        exact .yield trivial after
  | _ => exact .yield event h

theorem matched_stepContent (x : Expression) (phase : ContentPhase) {a b : Advance}
    (held : ∀ e ∈ phase.held?, e.Faithful known) (h : Matched known full a b) :
    Matched known full (stepContent x phase a) (stepContent x phase b) := by
  have kept {v : Stream} {r : Store} {bodies : List (BodyId × List Event)} (after : After known full bodies v r) :
      After known full bodies (.content x phase v) r := after.change ⟨held, after.stream⟩
  cases h with
  | yield event after =>
    cases phase with
    | start =>
      simp only [stepContent]
      split
      · exact .yield event (after.change ⟨by simp [ContentPhase.held?], after.stream⟩)
      · exact .skip (after.change ⟨by simp [ContentPhase.held?], after.stream⟩)
    | expression p => exact .skip (kept after)
    | last latest? => exact .skip (after.change ⟨by simpa [ContentPhase.held?] using event, after.stream⟩)
  | skip after => cases phase <;> exact .skip (kept after)
  | done after =>
    cases phase with
    | last latest? =>
      cases latest? with
      | none => exact .done (after.change after.stream)
      | some latest => exact .yield (held latest rfl) (after.change after.stream)
    | _ => exact .done (after.change after.stream)
  | fail after =>
    cases phase with
    | start => exact .fail (kept after)
    | _ => exact .fail (after.change after.stream)

theorem matched_testStrip (test : Option Expression) (h : After known full bodies u s) :
    Matched known full (testStrip k test u (s.withBodies bodies)) (testStrip k test u s) := by
  have untouched {r : Store} (after : After known full bodies u r) (test : Option Expression) :
      After known full bodies (.strip test .first u) r :=
    after.change ⟨by simp [StripPhase.held?], after.stream⟩
  unfold testStrip
  cases test with
  | none => exact .skip (untouched h none)
  | some x =>
    rcases eval_ahead k h x with ⟨why, first, second⟩ | ⟨v, r, first, second, after, -⟩
    · simp only [first, second]
      exact .fail h
    · simp only [first, second]
      split
      · exact .skip (untouched after _)
      · exact .skip after

theorem matched_stepStrip (test : Option Expression) (phase : StripPhase) {a b : Advance}
    (held : ∀ e ∈ phase.held?, e.Faithful known) (h : Matched known full a b) :
    Matched known full (stepStrip test phase a) (stepStrip test phase b) := by
  have other {v : Stream} {r : Store} {bodies : List (BodyId × List Event)} (after : After known full bodies v r)
      (phase : StripPhase) (held : ∀ e ∈ phase.held?, e.Faithful known) :
      After known full bodies (.strip test phase v) r := after.change ⟨held, after.stream⟩
  cases h with
  | @yield _ e _ _ event after =>
    have holding : After known full _ _ _ := other after (.holding e) (by simpa [StripPhase.held?] using event)
    cases phase with
    | holding latest => exact .yield (held latest rfl) holding
    | second => exact .skip holding
    | _ => exact .skip (other after .second (by simp [StripPhase.held?]))
  | skip after => cases phase <;> exact .skip (other after _ held)
  | done after => cases phase <;> exact .done (after.change after.stream)
  | fail after =>
    cases phase with
    | holding latest => exact .fail (other after _ held)
    | _ => exact .fail (other after (.holding .blank) (by simp [StripPhase.held?, Event.Faithful]))

/-! ## Filters -/

theorem matched_evaluateEvent (event : e.Faithful known) (h : After known full bodies u s) :
    Matched known full (evaluateEvent k e u (s.withBodies bodies)) (evaluateEvent k e u s) := by
  unfold evaluateEvent
  cases e with
  | startTag p name as =>
    dsimp only
    rcases evalAttributes_ahead k h as with ⟨why, first, second⟩ | ⟨as', r, first, second, after⟩
    · rw [first, second]
      exact .fail (h.change h.stream)
    · rw [first, second]
      exact .yield trivial (after.change after.stream)
  | expression p x =>
    dsimp only
    rcases eval_ahead k h x with ⟨why, first, second⟩ | ⟨v, r, first, second, after, made⟩
    · rw [first, second]
      exact .fail (h.change h.stream)
    · rw [first, second]
      have other : ∀ v : Value, Matched known full
          (if v.isNull then .skip (.evaluated u) (r.withBodies bodies)
            else .yield (.text p v.toText) (.evaluated u) (r.withBodies bodies))
          (if v.isNull then .skip (.evaluated u) r else .yield (.text p v.toText) (.evaluated u) r) := by
        intro v
        split
        · exact .skip (after.change after.stream)
        · exact .yield trivial (after.change after.stream)
      cases v with
      | stream id => exact .skip (after.change ⟨made, after.stream⟩)
      | _ => exact other _
  | _ => exact .yield event (h.change h.stream)

theorem matched_stepTidied (text? : Option (Position × Text)) {a b : Advance} (h : Matched known full a b) :
    Matched known full (stepTidied text? a) (stepTidied text? b) := by
  have idle {v : Stream} {r : Store} {bodies : List (BodyId × List Event)} (after : After known full bodies v r)
      (text? : Option (Position × Text)) : After known full bodies (.tidied none text? v) r :=
    after.change ⟨by simp, after.stream⟩
  cases h with
  | @yield _ e _ _ event after =>
    cases text? with
    | none =>
      cases e with
      | text p t => exact .skip (idle after _)
      | _ => exact .yield event (idle after none)
    | some text =>
      have held := after.change (v := .tidied (some e) none _) ⟨by simpa using event, after.stream⟩
      cases e with
      | text p t => exact .skip (idle after _)
      | _ => exact .yield trivial held
  | skip after => exact .skip (idle after text?)
  | done after =>
    cases text? with
    | none => exact .done (idle after none)
    | some text => exact .yield trivial (idle after none)
  | fail after => exact .fail (idle after none)

/-- The event that takes the place of a matched element captures nothing. -/
theorem faithful_substitution (p : Position) (body : BodyId) {matched : List Event}
    (h : Event.AllFaithful known matched) : (substitution p body matched.reverse).Faithful known := by
  refine ⟨.free ?_, ⟨?_, trivial⟩, trivial⟩
  · intro d hd b hb
    rw [List.mem_singleton.1 hd] at hb
    cases hb
  · exact Event.allFaithful_reverse h

theorem matched_stepSubstituted (path : Path) (body : BodyId) (openElements : List Event) {a b : Advance}
    (h : Matched known full a b) :
    Matched known full (stepSubstituted path body openElements a) (stepSubstituted path body openElements b) := by
  cases h with
  | yield event after =>
    simp only [stepSubstituted]
    split
    · split
      · exact .skip (after.change ⟨⟨event, trivial⟩, after.stream⟩)
      · exact .yield event (after.change after.stream)
    · split
      · exact .yield event (after.change after.stream)
      · exact .yield event (after.change after.stream)
  | skip after => exact .skip (after.change after.stream)
  | done after => exact .done (after.change after.stream)
  | fail after => exact .fail (after.change after.stream)

theorem matched_stepMatching (path : Path) (body : BodyId) (openElements : List Event) (p : Position) (depth : Nat)
    {matched : List Event} (events : Event.AllFaithful known matched) {a b : Advance} (h : Matched known full a b) :
    Matched known full (stepMatching path body openElements p depth matched a)
      (stepMatching path body openElements p depth matched b) := by
  cases h with
  | @yield _ e _ _ event after =>
    have more : Event.AllFaithful known (e :: matched) := ⟨event, events⟩
    simp only [stepMatching]
    generalize (if e.isStart then depth + 1 else if e.isEnd then depth - 1 else depth) = depth
    by_cases outside : depth = 0
    · rw [if_pos outside, if_pos outside]
      exact .yield (faithful_substitution p body more) (after.change after.stream)
    · rw [if_neg outside, if_neg outside]
      exact .skip (after.change ⟨more, after.stream⟩)
  | skip after => exact .skip (after.change ⟨events, after.stream⟩)
  | done after => exact .yield (faithful_substitution p body events) (after.change after.stream)
  | fail after => exact .fail (after.change after.stream)

/-! ## Includes -/

/-- The events that are kept of an include element are faithful. -/
theorem faithful_read {i : Inclusion} (event : e.Faithful known)
    (h : ∀ es ∈ i.fallback?, Event.AllFaithful known es) : ∀ es ∈ (Inclusion.read i e).fallback?,
      Event.AllFaithful known es := by
  have old : Event.AllFaithful known (i.fallback?.getD []) := by
    cases kept : i.fallback? with
    | none => trivial
    | some es => exact h es kept
  have kept : ∀ es ∈ (if i.inFallback then some (e :: i.fallback?.getD []) else i.fallback?),
      Event.AllFaithful known es := by
    split
    · rintro _ ⟨⟩
      exact ⟨event, old⟩
    · exact h
  unfold Inclusion.read
  cases e with
  | startTag p name as =>
    dsimp only
    split
    · rintro _ ⟨⟩
      exact old
    · exact kept
  | endTag p name =>
    dsimp only
    split
    · exact h
    · exact kept
  | _ => exact kept

theorem matched_insert (filename : Text) (prefixes : List Text) {i : Inclusion}
    (fallback : ∀ es ∈ i.fallback?, Event.AllFaithful known es) (h : After known full bodies u s) :
    Matched known full (insert filename prefixes i u (s.withBodies bodies)) (insert filename prefixes i u s) := by
  have refused (f : Fault) : Matched known full (.fail (.fault f) (.included filename prefixes u) (s.withBodies bodies))
      (.fail (.fault f) (.included filename prefixes u) s) := .fail (h.change h.stream)
  unfold insert
  dsimp only
  split
  · rw [show (s.withBodies bodies).library? = s.library? from rfl]
    cases found : s.library? with
    | none => exact refused _
    | some l =>
      have ahead := h.ahead.load found (i.attributes.textOf "href") filename
      have events := (h.ahead.faithful.load found (i.attributes.textOf "href") filename).2
      have same := bodies_load s l (i.attributes.textOf "href") filename
      dsimp only
      rw [load_withBodies]
      generalize s.load l (i.attributes.textOf "href") filename = loaded at ahead events same
      obtain ⟨result, r⟩ := loaded
      have after : After known full bodies u r := h.next same ahead
      cases result with
      | ok t =>
        exact .skip (after.change ⟨t.faithful_expansion (events t rfl), faithful_filtered.2 after.stream⟩)
      | error f =>
        dsimp only [fallBack]
        split
        · rename_i es kept
          have reversed : Event.AllFaithful known es.reverse := Event.allFaithful_reverse (fallback es kept)
          have warned : ∀ message, After known full bodies (.inserting filename prefixes 0 (.ofEvents es.reverse) u)
              (r.report .warning message) := fun message =>
            ⟨⟨reversed, after.stream⟩, after.ahead.next rfl (after.ahead.faithful.report _ message), after.grown⟩
          exact .skip (warned _)
        · exact .fail (after.change after.stream)
  · exact refused _

theorem matched_stepIncluded (filename : Text) (prefixes : List Text) {a b : Advance} (h : Matched known full a b) :
    Matched known full (stepIncluded filename prefixes a) (stepIncluded filename prefixes b) := by
  cases h with
  | @yield _ e _ _ event after =>
    cases e with
    | startNamespace p pre uri =>
      simp only [stepIncluded]
      split
      · exact .skip (after.change after.stream)
      · exact .yield event (after.change after.stream)
    | endNamespace p pre =>
      simp only [stepIncluded]
      split
      · exact .skip (after.change after.stream)
      · exact .yield event (after.change after.stream)
    | startTag p name as =>
      simp only [stepIncluded]
      split
      · exact .skip (after.change ⟨by simp [Inclusion.opened], after.stream⟩)
      · exact .yield event (after.change after.stream)
    | _ => exact .yield event (after.change after.stream)
  | skip after => exact .skip (after.change after.stream)
  | done after => exact .done (after.change after.stream)
  | fail after => exact .fail (after.change after.stream)

theorem matched_stepIncluding (filename : Text) (prefixes : List Text) {i : Inclusion}
    (fallback : ∀ es ∈ i.fallback?, Event.AllFaithful known es) {a b : Advance} (h : Matched known full a b) :
    Matched known full (stepIncluding filename prefixes i a) (stepIncluding filename prefixes i b) := by
  cases h with
  | yield event after =>
    have more := faithful_read event fallback
    simp only [stepIncluding]
    split
    · exact matched_insert filename prefixes more after
    · exact .skip (after.change ⟨more, after.stream⟩)
  | skip after => exact .skip (after.change ⟨fallback, after.stream⟩)
  | done after => exact matched_insert filename prefixes fallback after
  | fail after => exact .fail (after.change after.stream)

theorem matched_stepInserting (filename : Text) (prefixes : List Text) (indentation : Nat) (stream : u.Faithful known full)
    {a b : Advance} (h : Matched known full a b) :
    Matched known full (stepInserting filename prefixes indentation u a) (stepInserting filename prefixes indentation u b) := by
  have beside {v : Stream} {r : Store} {bodies : List (BodyId × List Event)} (after : After known full bodies v r) :
      After known full bodies (.inserting filename prefixes indentation v u) r :=
    after.change ⟨after.stream, after.other stream⟩
  cases h with
  | @yield _ e _ _ event after =>
    cases e with
    | text p t => exact .yield trivial (beside after)
    | _ => exact .yield event (beside after)
  | skip after => exact .skip (beside after)
  | @done bodies v r after =>
    simp only [stepInserting]
    rw [close_withBodies]
    exact .skip (after.close (after.other stream))
  | fail after => exact .fail (beside after)

/-! ## Streams that read another one -/

/-- The element that takes the place of the event, expanded before the rest. -/
theorem matched_stepExpanded (t : Template) (last : Position) {a b : Advance}
    (h : Matched known full a b) : Matched known full (stepExpanded t last a) (stepExpanded t last b) := by
  cases h with
  | @yield _ e v r event after =>
    cases e with
    | sub p ds es =>
      obtain ⟨settled, directives, events⟩ := event
      have element : (Stream.directed ds.reverse [] (.ofEvents es)).Faithful known r.full :=
        ⟨Directive.allFaithful_reverse directives, trivial, .inr ⟨es, rfl, settled, .inl rfl⟩, trivial, faithful_ofEvents events⟩
      exact .skip (after.change ⟨faithful_filtered.2 element, after.stream⟩)
    | _ => exact .yield event (after.change after.stream)
  | skip after => exact .skip (after.change after.stream)
  | done after =>
    simp only [stepExpanded]
    rw [close_withBodies]
    exact .done (after.close trivial)
  | fail after => exact .fail (after.change after.stream)

theorem matched_append {rest : Stream} (tail : rest.Faithful known full)
    (inner : Matched known full (step k u (s.withBodies bodies)) (step k u s)) :
    Matched known full (step k (.append u rest) (s.withBodies bodies)) (step k (.append u rest) s) := by
  simp only [step]
  generalize step k u (s.withBodies bodies) = a, step k u s = b at inner
  cases inner with
  | done after =>
    dsimp only
    rw [close_withBodies]
    exact .skip (after.close (after.other tail))
  | yield event after => exact .yield event (after.change ⟨after.stream, after.other tail⟩)
  | skip after => exact .skip (after.change ⟨after.stream, after.other tail⟩)
  | fail after => exact .fail (after.change ⟨after.stream, after.other tail⟩)

theorem matched_gathering (targets : List Text) {items : List Value} {body : List Event}
    (values : ∀ v ∈ items, v.From (.callable known full)) (events : Event.AllFaithful known body)
    (inner : Matched known full (step k u (s.withBodies bodies)) (step k u s)) :
    Matched known full (step k (.gathering targets items body u) (s.withBodies bodies))
      (step k (.gathering targets items body u) s) := by
  simp only [step]
  generalize step k u (s.withBodies bodies) = a, step k u s = b at inner
  cases inner with
  | yield event after => exact .skip (after.change ⟨after.items values, ⟨event, events⟩, after.stream⟩)
  | skip after => exact .skip (after.change ⟨after.items values, events, after.stream⟩)
  | done after =>
    have reversed : ∀ es ∈ some body.reverse, Event.AllFaithful known es := by
      rintro _ ⟨⟩
      exact Event.allFaithful_reverse events
    exact .skip (after.change ⟨after.items values, reversed, by simp, after.stream⟩)
  | fail after => exact .fail (after.change ⟨after.items values, by simp, by simp, after.stream⟩)

theorem matched_attributes (x : Expression)
    (inner : Matched known full (step k u (s.withBodies bodies)) (step k u s)) :
    Matched known full (step k (.attributes x u) (s.withBodies bodies)) (step k (.attributes x u) s) := by
  simp only [step]
  generalize step k u (s.withBodies bodies) = a, step k u s = b at inner
  cases inner with
  | yield event after => exact matched_mergeInto x event after
  | skip after => exact .skip (after.change after.stream)
  | done after => exact .done after
  | fail after => exact .fail after

theorem matched_replaced (x : Expression)
    (inner : Matched known full (step k u (s.withBodies bodies)) (step k u s)) :
    Matched known full (step k (.replaced x u) (s.withBodies bodies)) (step k (.replaced x u) s) := by
  simp only [step]
  generalize step k u (s.withBodies bodies) = a, step k u s = b at inner
  cases inner with
  | yield event after => exact .yield trivial (after.change after.stream)
  | skip after => exact .skip (after.change after.stream)
  | done after => exact .done (after.change after.stream)
  | fail after => exact .fail (after.change after.stream)

theorem matched_evaluated (inner : Matched known full (step k u (s.withBodies bodies)) (step k u s)) :
    Matched known full (step k (.evaluated u) (s.withBodies bodies)) (step k (.evaluated u) s) := by
  simp only [step]
  generalize step k u (s.withBodies bodies) = a, step k u s = b at inner
  cases inner with
  | yield event after => exact matched_evaluateEvent event after
  | skip after => exact .skip (after.change after.stream)
  | done after =>
    dsimp only
    rw [close_withBodies]
    exact .done (after.close trivial)
  | fail after => exact .fail (after.change after.stream)

end Stream

end Stencil
