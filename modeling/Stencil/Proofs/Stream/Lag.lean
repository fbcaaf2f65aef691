import Stencil.Proofs.Stream.Captured

/-!
# A store lags behind and catches up

The step lemma for two stores one of which is ahead of the other (`Stream.step_keeps`). Most steps are
matched. Where the store that is ahead drops an element that it has captured before, the other one reads
the element, in as many steps as it takes, captures the same and drops it too (`Stream.catches_up`).

A match template that is used before its body has been captured is the one thing that the two stores
would not agree on; `Stream.expanding?` says whether a step is such a use.
-/

namespace Stencil

variable {known : Known} {full : BodyId → Prop} {bodies : List (BodyId × List Event)} {k : Nat} {d : Directive}
  {rest : List Directive} {read es : List Event} {u v w : Stream} {s r : Store} {b : BodyId}

open Store Advance

namespace Stream

/-! ## Directives -/

theorem After.proceed (h : After known full bodies u r) (directives : Directive.AllFaithful known rest)
    (applying : Applying known rest [] v) (bare : v.Bare) (faithful : v.Faithful known r.full) :
    Matched known full (proceed rest v (r.withBodies bodies)) (proceed rest v r) :=
  .skip (h.change ⟨directives, trivial, applying, bare, faithful⟩)

theorem After.drop (h : After known full bodies u r) (directives : Directive.AllFaithful known rest)
    (applying : Applying known rest [] .empty) :
    Matched known full (drop rest u (r.withBodies bodies)) (drop rest u r) := by
  unfold Stream.drop
  rw [close_withBodies]
  exact (h.close h.stream).proceed directives applying trivial trivial

theorem After.refuse (h : After known full bodies u r) (why : Stop) :
    Matched known full (refuse why u (r.withBodies bodies)) (refuse why u r) := by
  unfold Stream.refuse
  rw [close_withBodies]
  exact .fail (h.close (v := .empty) trivial)

theorem matched_test (wanted : Bool) (x : Expression) (h : After known full bodies u s) (bare : u.Bare)
    (directives : Directive.AllFaithful known rest) (free : Directive.Free known rest) :
    Matched known full (test k wanted x rest u (s.withBodies bodies)) (test k wanted x rest u s) := by
  unfold test
  rcases eval_ahead k h x with ⟨why, first, second⟩ | ⟨v, r, first, second, after, -⟩
  · rw [first, second]
    exact h.refuse why
  · rw [first, second]
    dsimp only
    by_cases truth : v.isTrue = wanted
    · rw [if_pos truth, if_pos truth]
      exact after.proceed directives (.inl free) bare after.stream
    · rw [if_neg truth, if_neg truth]
      exact after.drop directives (.inl free)

/-- What a directive with a slot does once something is captured there: a `def` directive binds its
function. -/
def bindSlot (d : Directive) (s : Store) : Store :=
  match d with
  | .define signature body => bindTemplate signature body s
  | _ => s

theorem complete_slot (slot : d.slot? = some b) (rest : List Directive) (es : List Event) (u : Stream) (s : Store) :
    complete d rest es u s = Stream.drop rest u (bindSlot d (s.capture b es)) := by
  cases d with
  | define signature body | capture body =>
    cases slot
    rfl
  | _ => cases slot

theorem bindSlot_withBodies (d : Directive) (bodies : List (BodyId × List Event)) (s : Store) :
    bindSlot d (s.withBodies bodies) = (bindSlot d s).withBodies bodies := by
  cases d <;> rfl

theorem After.bindSlot (h : After known full bodies u r) (slot : d.slot? = some b) (isFull : r.full b) :
    After known full bodies u (bindSlot d r) := by
  cases d with
  | define signature body =>
    cases slot
    have numbered : Ahead known bodies { r with nextFunction := r.nextFunction + 1 } :=
      h.ahead.next rfl (h.ahead.faithful.numbered _)
    have bound : Ahead known bodies (bindTemplate signature b r) :=
      numbered.next rfl (numbered.faithful.withContext (numbered.faithful.context.set fun _ => isFull))
    exact ⟨h.stream, bound, h.grown⟩
  | _ => exact h

theorem After.complete (h : After known full bodies u r) (slot : d.slot? = some b) (isFull : r.full b)
    (directives : Directive.AllFaithful known rest) (applying : Applying known rest [] .empty) :
    Matched known full (Stream.drop rest u (Stream.bindSlot d (r.withBodies bodies)))
      (Stream.drop rest u (Stream.bindSlot d r)) := by
  rw [bindSlot_withBodies]
  exact (h.bindSlot slot isFull).drop directives applying

/-- The replay of a captured body, with its frame. -/
theorem matched_expand (body : BodyId) {matched : List Event} (h : After known full bodies u s)
    (events : Event.AllFaithful known matched) (ready : (s.withBodies bodies).body body = s.body body)
    (directives : Directive.AllFaithful known rest) (free : Directive.Free known rest) :
    Matched known full (applyDirective k (.expand body matched) rest u (s.withBodies bodies))
      (applyDirective k (.expand body matched) rest u s) := by
  have closed := h.close h.stream
  have same : ((u.close s).withBodies bodies).body body = (u.close s).body body := by
    have there : ((u.close s).withBodies bodies).body body = (s.withBodies bodies).body body := rfl
    have here : (u.close s).body body = s.body body := by
      unfold Store.body captured?
      rw [bodies_close]
    rw [there, here, ready]
  have after : After known full bodies u { u.close s with nextFunction := (u.close s).nextFunction + 1 } :=
    ⟨closed.stream, closed.ahead.next rfl (closed.ahead.faithful.numbered _), closed.grown⟩
  unfold applyDirective
  rw [close_withBodies]
  simp only [expansionOf, newFunction]
  have body₁ : Store.body { (u.close s).withBodies bodies with
      nextFunction := ((u.close s).withBodies bodies).nextFunction + 1 } body = (u.close s).body body := same
  have body₂ : Store.body { u.close s with nextFunction := (u.close s).nextFunction + 1 } body = (u.close s).body body := rfl
  rw [body₁, body₂]
  refine after.proceed directives (.inl free) trivial ⟨?_, closed.ahead.faithful.body body⟩
  exact Entries.From.cons events .nil

/-- A directive that need not read its element in either store. -/
theorem matched_applyDirective (h : After known full bodies (.directed (d :: rest) read u) s)
    (first : needsEvents d (s.withBodies bodies) = false) (second : needsEvents d s = false)
    (ready : ∀ body matched, d = .expand body matched → (s.withBodies bodies).body body = s.body body) :
    Matched known full (applyDirective k d rest u (s.withBodies bodies)) (applyDirective k d rest u s) := by
  obtain ⟨⟨events, directives⟩, -, applying, bare, stream⟩ := h.stream
  have before : After known full bodies u s := h.change stream
  cases d with
  | loop targets items => exact before.proceed directives (.inl (applying.free rfl)) bare stream
  | condition x => exact matched_test true x before bare directives (applying.free rfl)
  | attributes x => exact before.proceed directives (.inl (applying.free rfl)) bare stream
  | replace x =>
    exact before.proceed directives (applying.still rfl (by simp) fun es left => by simp [remaining, left, Directive.still])
      bare stream
  | content x =>
    refine before.proceed directives (applying.still rfl (by simp) fun es left => ?_) bare
      ⟨by simp [ContentPhase.held?], stream⟩
    simp [remaining, left, filledFrom, Directive.still]
  | strip x? =>
    have untested {x? : Option Expression} : (Stream.strip x? .untested u).Faithful known s.full :=
      ⟨by simp [StripPhase.held?], stream⟩
    cases x? with
    | none =>
      refine before.proceed directives (applying.still rfl (by simp) fun es left => ?_) bare untested
      simp [remaining, left, strippedFrom, Directive.still]
    | some x => exact before.proceed directives (.inl (applying.free rfl)) bare untested
  | extension kind x? =>
    rcases kind with ⟨name, number, _ | _⟩
    · cases x? with
      | none =>
        have once (kind : Extension) (e? : Option Expression) (twice : kind.effect = .twice) :
            Directive.extension ⟨name, number, .unless⟩ none ≠ .extension kind e? := by
          rintro ⟨⟩
          cases twice
        exact before.proceed directives (applying.still rfl once fun es left => left) bare stream
      | some x => exact matched_test false x before bare directives (applying.free rfl)
    · cases second
  | expand body matched => exact matched_expand body before events (ready body matched rfl) directives (applying.free rfl)
  | define signature body =>
    have isFull : s.full body := by simpa [needsEvents, Store.full, Option.isSome_iff_ne_none] using second
    change Matched known full (complete (.define signature body) rest [] u _) (complete (.define signature body) rest [] u _)
    rw [complete_slot rfl, complete_slot rfl, capture_of_full isFull, capture_of_full (h.ahead.full isFull)]
    exact before.complete rfl isFull directives (applying.dropped rfl)
  | capture body =>
    have isFull : s.full body := by simpa [needsEvents, Store.full, Option.isSome_iff_ne_none] using second
    change Matched known full (complete (.capture body) rest [] u _) (complete (.capture body) rest [] u _)
    rw [complete_slot rfl, complete_slot rfl, capture_of_full isFull, capture_of_full (h.ahead.full isFull)]
    exact before.complete rfl isFull directives (applying.dropped rfl)

/-- What was captured has been captured by the store that is ahead, now or before. -/
theorem After.capture (h : After known full bodies u s) (kept : ∀ body, known b = some body → body = es)
    (events : Event.AllFaithful known es) :
    ∃ bodies', (s.withBodies bodies).capture b es = (s.capture b es).withBodies bodies' ∧
      After known full bodies' u (s.capture b es) := by
  have after {bodies'} (ahead : Ahead known bodies' (s.capture b es)) : After known full bodies' u (s.capture b es) :=
    ⟨h.stream.mono fun _ => full_capture s b es, ahead, fun b' isFull => full_capture s b es (h.grown b' isFull)⟩
  by_cases isFull : (s.withBodies bodies).full b
  · cases isKnown : known b with
    | none =>
      have filled : s.full b := by
        unfold Store.full at isFull ⊢
        rwa [h.ahead.others b isKnown] at isFull
      refine ⟨bodies, ?_, after ?_⟩
      · rw [capture_of_full isFull, capture_of_full filled]
      · rw [capture_of_full filled]
        exact h.ahead
    | some body =>
      obtain rfl := kept body isKnown
      obtain ⟨same, ahead⟩ := h.ahead.catchUp isFull isKnown
      refine ⟨bodies, ?_, after ahead⟩
      rw [← same, capture_of_full isFull, capture_of_full isFull]
  · obtain ⟨same, ahead⟩ := h.ahead.capture (empty_of_not_full isFull) kept events
    exact ⟨_, same, after ahead⟩

/-- A directive of which all events of the element are known now, in both stores. -/
theorem matched_complete (h : After known full bodies u s) (gathers : Gathers d)
    (directives : Directive.AllFaithful known rest) (events : Event.AllFaithful known es)
    (settled : Directive.Free known (d :: rest) ∨ Directive.Settled known (d :: rest) es) :
    Matched known full (complete d rest es u (s.withBodies bodies)) (complete d rest es u s) := by
  have applying : Applying known (d :: rest) [] (.ofEvents es) := by
    rcases settled with free | settled
    · exact .inl free
    · exact .inr ⟨es, rfl, settled, .inl rfl⟩
  rcases gathers with slotted | ⟨⟨name, number, effect⟩, e?, rfl, rfl⟩
  · obtain ⟨b, slot⟩ := Option.isSome_iff_exists.1 slotted
    have kept : ∀ body, known b = some body → body = es := by
      intro body isKnown
      obtain ⟨_, ⟨⟩, same⟩ := applying.kept slot isKnown
      simpa using same
    obtain ⟨bodies', same, after⟩ := h.capture kept events
    rw [complete_slot slot, complete_slot slot, same]
    exact after.complete slot (full_capture_self s b es) directives (applying.dropped slot)
  · have twice : Event.AllFaithful known (es ++ es) := by
      refine Event.allFaithful_iff.2 fun e he => Event.allFaithful_iff.1 events e ?_
      rcases List.mem_append.1 he with he | he <;> exact he
    have left : Applying known rest [] (.ofEvents (es ++ es)) := by
      rcases settled with free | settled
      · exact .inl free.tail
      · cases settled with
        | free free => exact .inl free.tail
        | still _ _ settled => exact .inr ⟨_, rfl, settled, .inl rfl⟩
    change Matched known full (Stream.proceed rest _ (u.close (s.withBodies bodies))) (Stream.proceed rest _ (u.close s))
    rw [close_withBodies]
    exact (h.close h.stream).proceed directives left trivial twice

/-! ## Catching up -/

/-- One or more skipped steps lead from one state to another. -/
def Leads (k : Nat) (u : Stream) (s : Store) (v : Stream) (r : Store) : Prop :=
  ∃ w q, step k u s = .skip w q ∧ Run k w q [] v r

theorem leads_of_run {q : Store} (before : Run k u s [] w q) (last : step k w q = .skip v r) : Leads k u s v r := by
  generalize none : ([] : List Event) = es at before
  cases before with
  | refl => exact ⟨v, r, last, .refl v r⟩
  | skip first rest =>
    subst none
    exact ⟨_, _, first, rest.trans (.silent last)⟩
  | yield => cases none

/-- **The store that lags behind catches up**: an element that is dropped in one store, as it has been
captured, is read, captured and dropped in the other. -/
theorem catches_up (h : After known full bodies (.directed (d :: rest) read u) s)
    (first : needsEvents d (s.withBodies bodies) = false) (second : needsEvents d s = true) :
    ∃ v r, step k (.directed (d :: rest) read u) (s.withBodies bodies) = .skip v (r.withBodies bodies) ∧
      Leads k (.directed (d :: rest) read u) s v r ∧ After known full bodies v r := by
  obtain ⟨⟨-, directives⟩, -, applying, -, -⟩ := h.stream
  obtain ⟨b, slot, isFull, isEmpty⟩ : ∃ b, d.slot? = some b ∧ (s.withBodies bodies).full b ∧ s.captured? b = none := by
    cases d with
    | define signature b | capture b =>
      refine ⟨b, rfl, ?_, by simpa [needsEvents] using second⟩
      simpa [needsEvents, Store.full, Option.isSome_iff_ne_none] using first
    | extension kind x? => rcases kind with ⟨name, number, _ | _⟩ <;> cases first.symm.trans second
    | _ => cases second
  obtain ⟨body, isKnown⟩ : ∃ body, known b = some body := by
    refine Option.ne_none_iff_exists'.1 fun unknown => ?_
    unfold Store.full at isFull
    rw [h.ahead.others b unknown, isEmpty] at isFull
    cases isFull
  obtain ⟨es, left, rfl⟩ := applying.kept slot isKnown
  obtain ⟨v, w, ended, run, last⟩ := run_reading (k := k) second rest read left
  obtain ⟨same, ahead⟩ := h.ahead.catchUp isFull isKnown
  have after : After known full bodies .empty (s.capture b (read.reverse ++ es)) :=
    ⟨trivial, ahead, fun b' isFull => full_capture s b _ (h.grown b' isFull)⟩
  have bound := after.bindSlot slot (full_capture_self s b _)
  refine ⟨.directed rest [] .empty, _, ?_, leads_of_run run ?_, bound.change ?_⟩
  · rw [step, if_neg (by rw [first]; exact Bool.false_ne_true)]
    have dropped : applyDirective k d rest u (s.withBodies bodies) = complete d rest [] u (s.withBodies bodies) := by
      cases d with
      | define | capture => rfl
      | _ => cases slot
    rw [dropped, complete_slot slot, same, Stream.drop, inert_of_remaining left, bindSlot_withBodies]
    rfl
  · rw [last, complete_slot slot, Stream.drop, inert_of_remaining ended]
    rfl
  · exact ⟨directives, trivial, applying.dropped slot, trivial, trivial⟩

/-! ## The step lemma -/

/-- The match template that the directive expands. -/
def expands? : Directive → Option BodyId
  | .expand body _ => some body
  | _ => none

/-- The match template whose body the next step replays, if it is such a step. -/
def expanding? (s : Store) : Stream → Option BodyId
  | append u _ | gathering _ _ _ u | attributes _ u | replaced _ u | evaluated u | substituted _ _ _ u
  | matching _ _ _ _ _ _ u | included _ _ u | including _ _ _ u | inserting _ _ _ u _ | expanded _ _ u => u.expanding? s
  | content _ phase u => match phase with
    | .expression _ => none
    | _ => u.expanding? s
  | strip _ phase u => match phase with
    | .untested => none
    | _ => u.expanding? s
  | tidied pending? _ u => match pending? with
    | some _ => none
    | none => u.expanding? s
  | directed (d :: _) _ u => if needsEvents d s then u.expanding? s else expands? d
  | replay _ | shared _ | ended _ | loop .. | looping .. | directed [] _ _ => none

/-- A step from the store that is ahead is matched by a step from the other one or, while that one catches
up, by several. -/
def Keeps (known : Known) (k : Nat) (bodies : List (BodyId × List Event)) (u : Stream) (s : Store) : Prop :=
  Matched known s.full (step k u (s.withBodies bodies)) (step k u s) ∨
    ¬ u.Bare ∧ ∃ bodies' v r, step k u (s.withBodies bodies) = .skip v (r.withBodies bodies') ∧ Leads k u s v r ∧
      After known s.full bodies' v r

theorem HandsOn.bare {wrap : Stream → Stream} (h : HandsOn wrap) (bare : (wrap u).Bare) : u.Bare := by
  cases h with
  | gathering | attributes | start | last | replaced | strip => exact bare
  | _ => exact bare.elim

/-- A step of a stream that reads another one. -/
theorem Keeps.through (h : Keeps known k bodies u s) {wrap : Stream → Stream} (handsOn : HandsOn wrap)
    (faithful : ∀ {v : Stream} {r : Store}, (∀ b, s.full b → r.full b) → v.Faithful known r.full →
      (wrap v).Faithful known r.full)
    (matched : Matched known s.full (step k u (s.withBodies bodies)) (step k u s) →
      Matched known s.full (step k (wrap u) (s.withBodies bodies)) (step k (wrap u) s)) :
    Keeps known k bodies (wrap u) s := by
  rcases h with same | ⟨notBare, bodies', v, r, first, ⟨w, q, second, run⟩, after⟩
  · exact .inl (matched same)
  · exact .inr ⟨fun isBare => notBare (handsOn.bare isBare), bodies', wrap v, r, handsOn.skip first,
      ⟨wrap w, q, handsOn.skip second, run.through handsOn⟩, after.change (faithful after.grown after.stream)⟩

theorem needs_of_ahead (h : Ahead known bodies s) (needs : needsEvents d (s.withBodies bodies) = true) :
    needsEvents d s = true := by
  have empty {b : BodyId} (nothing : ((s.withBodies bodies).captured? b).isNone = true) :
      (s.captured? b).isNone = true := by
    cases found : s.captured? b with
    | none => rfl
    | some es =>
      rw [h.less b es found] at nothing
      cases nothing
  cases d with
  | define | capture => exact empty needs
  | extension kind e? => rcases kind with ⟨name, number, _ | _⟩ <;> exact needs
  | _ => cases needs

/-- A step of an element whose first directive reads it in both stores. -/
theorem matched_gather (h : After known full bodies (.directed (d :: rest) read u) s) (gathers : Gathers d)
    (inner : Matched known full (step k u (s.withBodies bodies)) (step k u s))
    (first : needsEvents d (s.withBodies bodies) = true) (second : needsEvents d s = true) :
    Matched known full (step k (.directed (d :: rest) read u) (s.withBodies bodies))
      (step k (.directed (d :: rest) read u) s) := by
  obtain ⟨⟨event, directives⟩, events, applying, bare, -⟩ := h.stream
  obtain ⟨onSkip, onYield, onDone⟩ := applying.step (k := k) (s := s) gathers
  have stays := bare_step (k := k) (s := s) bare
  simp only [step]
  rw [if_pos first, if_pos second]
  generalize step k u (s.withBodies bodies) = a, step k u s = b at inner onSkip onYield onDone stays
  cases inner with
  | yield event' after =>
    exact .skip (after.change ⟨⟨event, directives⟩, ⟨event', events⟩, onYield _ _ _ rfl, stays, after.stream⟩)
  | skip after => exact .skip (after.change ⟨⟨event, directives⟩, events, onSkip _ _ rfl, stays, after.stream⟩)
  | done after =>
    exact matched_complete after gathers directives (Event.allFaithful_reverse events) (onDone _ _ rfl)
  | fail after => exact after.refuse _

/-- A step of an element with directives. -/
theorem keeps_directed {directives : List Directive} (stream : (Stream.directed directives read u).Faithful known s.full)
    (ahead : Ahead known bodies s)
    (ready : ∀ b ∈ (Stream.directed directives read u).expanding? s, (s.withBodies bodies).body b = s.body b)
    (inner : (∀ b ∈ u.expanding? s, (s.withBodies bodies).body b = s.body b) → Keeps known k bodies u s) :
    Keeps known k bodies (.directed directives read u) s := by
  have here : After known s.full bodies (.directed directives read u) s := ⟨stream, ahead, fun _ h => h⟩
  obtain ⟨-, -, -, bare, stream⟩ := stream
  cases directives with
  | nil => exact .inl (.skip (here.change stream))
  | cons d rest =>
    cases first : needsEvents d (s.withBodies bodies) <;> cases second : needsEvents d s
    · refine .inl ?_
      simp only [step]
      rw [if_neg (by simp [first]), if_neg (by simp [second])]
      refine matched_applyDirective here first second ?_
      rintro body matched rfl
      apply ready
      rw [expanding?, if_neg (by simp [second])]
      rfl
    · obtain ⟨v, r, next, leads, after⟩ := catches_up (k := k) here first second
      exact .inr ⟨id, bodies, v, r, next, leads, after⟩
    · rw [needs_of_ahead ahead first] at second
      cases second
    · rw [expanding?, if_pos second] at ready
      rcases inner ready with same | ⟨notBare, -⟩
      · exact .inl (matched_gather here (gathers_of_needs second) same first second)
      · exact absurd bare notBare

/-- **The step lemma**: a step from a store that is ahead of another one is matched by one or several steps
from there, unless it replays a body that the two stores do not agree on. -/
theorem step_keeps (stream : u.Faithful known s.full) (ahead : Ahead known bodies s)
    (ready : ∀ b ∈ u.expanding? s, (s.withBodies bodies).body b = s.body b) : Keeps known k bodies u s := by
  have start {v : Stream} (h : v.Faithful known s.full) : After known s.full bodies v s := ⟨h, ahead, fun _ h => h⟩
  induction u with
  | replay q => exact .inl (matched_stepReplay (start stream))
  | shared id => exact .inl (matched_stepShared (start stream))
  | ended u => exact .inl (.done (start stream))
  | loop targets items u => exact .inl (matched_startLoop targets items (start stream))
  | looping targets items body? current? u => exact .inl (matched_stepLoop (start stream))
  | append first rest ih =>
    obtain ⟨head, tail⟩ := stream
    exact (ih head ready).through (.append rest) (fun le faithful => ⟨faithful, tail.mono le⟩) (matched_append tail)
  | gathering targets items body u ih =>
    obtain ⟨values, events, stream⟩ := stream
    exact (ih stream ready).through (.gathering targets items body)
      (fun le faithful => ⟨fun v hv => (values v hv).mono (Stock.callable_mono le), events, faithful⟩)
      (matched_gathering targets values events)
  | attributes x u ih => exact (ih stream ready).through (.attributes x) (fun _ faithful => faithful) (matched_attributes x)
  | content x phase u ih =>
    obtain ⟨held, stream⟩ := stream
    cases phase with
    | expression p => exact .inl (.yield trivial (start ⟨by simp [ContentPhase.held?], stream⟩))
    | start => exact (ih stream ready).through (.start x) (fun _ faithful => ⟨held, faithful⟩) (matched_stepContent x _ held)
    | last latest? =>
      exact (ih stream ready).through (.last x latest?) (fun _ faithful => ⟨held, faithful⟩) (matched_stepContent x _ held)
  | replaced x u ih => exact (ih stream ready).through (.replaced x) (fun _ faithful => faithful) (matched_replaced x)
  | strip test phase u ih =>
    obtain ⟨held, stream⟩ := stream
    cases phase with
    | untested => exact .inl (matched_testStrip test (start stream))
    | first | second | holding =>
      exact (ih stream ready).through (.strip test _ (by simp)) (fun _ faithful => ⟨held, faithful⟩)
        (matched_stepStrip test _ held)
  | directed directives read u ih => exact keeps_directed stream ahead ready (ih stream.2.2.2.2)
  | evaluated u ih => exact (ih stream ready).through .evaluated (fun _ faithful => faithful) matched_evaluated
  | tidied pending? text? u ih =>
    obtain ⟨pending, stream⟩ := stream
    cases pending? with
    | some e => exact .inl (.yield (pending e rfl) (start ⟨by simp, stream⟩))
    | none =>
      exact (ih stream ready).through (.tidied text?) (fun _ faithful => ⟨pending, faithful⟩) (matched_stepTidied text?)
  | substituted path body openElements u ih =>
    exact (ih stream ready).through (.substituted path body openElements) (fun _ faithful => faithful)
      (matched_stepSubstituted path body openElements)
  | matching path body openElements p depth matched u ih =>
    obtain ⟨events, stream⟩ := stream
    exact (ih stream ready).through (.matching path body openElements p depth matched)
      (fun _ faithful => ⟨events, faithful⟩) (matched_stepMatching path body openElements p depth events)
  | included filename prefixes u ih =>
    exact (ih stream ready).through (.included filename prefixes) (fun _ faithful => faithful)
      (matched_stepIncluded filename prefixes)
  | including filename prefixes i u ih =>
    obtain ⟨fallback, stream⟩ := stream
    exact (ih stream ready).through (.including filename prefixes i) (fun _ faithful => ⟨fallback, faithful⟩)
      (matched_stepIncluding filename prefixes fallback)
  | inserting filename prefixes indentation inserted u ih =>
    obtain ⟨inner, outer⟩ := stream
    exact (ih inner ready).through (.inserting filename prefixes indentation u)
      (fun le faithful => ⟨faithful, outer.mono le⟩) (matched_stepInserting filename prefixes indentation outer)
  | expanded t last u ih =>
    exact (ih stream ready).through (.expanded t last) (fun _ faithful => faithful) (matched_stepExpanded t last)

end Stream

end Stencil
