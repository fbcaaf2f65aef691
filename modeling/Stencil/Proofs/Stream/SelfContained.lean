import Stencil.Proofs.Expr.Range
import Stencil.Proofs.Stream.Kept
import Stencil.Proofs.Stream.Run
import Stencil.Proofs.Stream.ScopedStep

/-!
# Expansions without functions and inclusions

Events are self-contained if no `def` directive and no include element is among them. Where all events at hand are, and
no function at hand is one that a template has defined, this stays so (`Stream.step_selfContained`). Then expressions
do not nest calls, and more fuel for them than `Function.enough` makes no difference (`Stream.step_enough`).
-/

namespace Stencil

/-! ## What is self-contained -/

mutual

/-- There is no `def` directive and no include element in the event. -/
def Event.SelfContained : Event → Prop
  | .startTag _ name _ => name.same Stream.includeName = false
  | .sub _ ds es => Directive.AllSelfContained ds ∧ Event.AllSelfContained es
  | _ => True

def Event.AllSelfContained : List Event → Prop
  | [] => True
  | e :: es => e.SelfContained ∧ Event.AllSelfContained es

def Directive.SelfContained : Directive → Prop
  | .define .. => False
  | .expand _ matched => Event.AllSelfContained matched
  | _ => True

def Directive.AllSelfContained : List Directive → Prop
  | [] => True
  | d :: ds => d.SelfContained ∧ Directive.AllSelfContained ds

end

theorem Event.allSelfContained_iff {es : List Event} : Event.AllSelfContained es ↔ ∀ e ∈ es, e.SelfContained := by
  induction es with
  | nil => simp [Event.AllSelfContained]
  | cons e es ih => simp [Event.AllSelfContained, ih]

theorem Directive.allSelfContained_iff {ds : List Directive} : Directive.AllSelfContained ds ↔ ∀ d ∈ ds, d.SelfContained := by
  induction ds with
  | nil => simp [Directive.AllSelfContained]
  | cons d ds ih => simp [Directive.AllSelfContained, ih]

theorem Event.allSelfContained_reverse {es : List Event} (h : Event.AllSelfContained es) :
    Event.AllSelfContained es.reverse := by
  rw [allSelfContained_iff] at h ⊢
  exact fun e he => h e (List.mem_reverse.1 he)

theorem Event.allSelfContained_append {es fs : List Event} (h : Event.AllSelfContained es)
    (h' : Event.AllSelfContained fs) : Event.AllSelfContained (es ++ fs) := by
  rw [allSelfContained_iff] at h h' ⊢
  exact fun e he => (List.mem_append.1 he).elim (h e) (h' e)

theorem Directive.allSelfContained_reverse {ds : List Directive} (h : Directive.AllSelfContained ds) :
    Directive.AllSelfContained ds.reverse := by
  rw [allSelfContained_iff] at h ⊢
  exact fun d hd => h d (List.mem_reverse.1 hd)

/-- Functions that no template has defined, with self-contained events to select from. -/
def Stock.selfContained : Stock where
  function f := match f.kind with
    | .template .. => False
    | .select matched => Event.AllSelfContained matched
    | _ => True
  stream _ := True

theorem Stock.built_selfContained : Stock.selfContained.Built := by
  rintro ⟨id, kind⟩ made signature body rfl
  exact made

def Replay.SelfContained : Replay → Prop
  | plain es | running _ es => Event.AllSelfContained es
  | waiting frame es => Entries.From .selfContained frame ∧ Event.AllSelfContained es
  | finished => True

/-- All events in the stream are self-contained, its values are made of functions that no template has defined, and no
template is included. -/
def Stream.SelfContained : Stream → Prop
  | replay r => r.SelfContained
  | shared _ => True
  | append first rest => first.SelfContained ∧ rest.SelfContained
  | gathering _ items body u => (∀ v ∈ items, v.From .selfContained) ∧ Event.AllSelfContained body ∧ u.SelfContained
  | looping _ items body? current? u =>
    (∀ v ∈ items, v.From .selfContained) ∧ (∀ body ∈ body?, Event.AllSelfContained body) ∧
      (∀ c ∈ current?, Event.AllSelfContained c.2) ∧ u.SelfContained
  | content _ phase u => (∀ e ∈ phase.held?, e.SelfContained) ∧ u.SelfContained
  | strip _ phase u => (∀ e ∈ phase.held?, e.SelfContained) ∧ u.SelfContained
  | directed ds read u => Directive.AllSelfContained ds ∧ Event.AllSelfContained read ∧ u.SelfContained
  | tidied pending? _ u => (∀ e ∈ pending?, e.SelfContained) ∧ u.SelfContained
  | matching _ _ _ _ _ matched u => Event.AllSelfContained matched ∧ u.SelfContained
  | including .. | inserting .. => False
  | ended u | loop _ _ u | attributes _ u | replaced _ u | evaluated u | substituted _ _ _ u | included _ _ u
  | expanded _ _ u => u.SelfContained

/-- All events that the store keeps are self-contained, and no function at hand has been defined by a template. -/
structure Store.SelfContained (s : Store) : Prop where
  context : s.context.From .selfContained
  bodies : ∀ b es, s.captured? b = some es → Event.AllSelfContained es
  replay : ∀ id, (s.replay id).SelfContained

def Advance.SelfContained : Advance → Prop
  | yield e u s => e.SelfContained ∧ u.SelfContained ∧ s.SelfContained
  | skip u s | done u s | fail _ u s => u.SelfContained ∧ s.SelfContained

theorem Advance.SelfContained.both {a : Advance} (h : a.SelfContained) : a.stream.SelfContained ∧ a.store.SelfContained := by
  cases a with
  | yield => exact h.2
  | _ => exact h

/-- A step of a stream that hands on the events of another one. -/
theorem Advance.SelfContained.map {a : Advance} (h : a.SelfContained) {wrap : Stream → Stream}
    (keeps : ∀ u, u.SelfContained → (wrap u).SelfContained) : (a.map wrap).SelfContained := by
  cases a with
  | yield => exact ⟨h.1, keeps _ h.2.1, h.2.2⟩
  | _ => exact ⟨keeps _ h.1, h.2⟩

theorem Stream.selfContained_filtered {fs : List Filter} {u : Stream} :
    (u.filtered fs).SelfContained ↔ u.SelfContained := by
  induction fs generalizing u with
  | nil => rfl
  | cons f fs ih =>
    change (Stream.filtered fs (f.apply u)).SelfContained ↔ _
    rw [ih]
    cases f with
    | tidy => simp [Filter.apply, Stream.SelfContained]
    | _ => rfl

theorem Template.selfContained_expansion {t : Template} (h : Event.AllSelfContained t.events) :
    t.expansion.SelfContained := Stream.selfContained_filtered.2 (Stream.selfContained_filtered.2 h)

/-! ## Stores -/

theorem Stock.suits_selfContained : Stock.selfContained.Suits Event.SelfContained where
  builtin := by rintro id kind (rfl | rfl | rfl | rfl) <;> trivial
  stream := fun _ => trivial
  select := by
    rintro ⟨id, kind⟩ matched made rfl path e he
    rcases Path.mem_select he with old | ⟨d, -, t, rfl⟩
    · exact Event.allSelfContained_iff.1 made e old
    · trivial

theorem Replay.selfContained_iff {r : Replay} : r.SelfContained ↔ r.Keeps Event.SelfContained .selfContained := by
  cases r <;> simp [Replay.SelfContained, Replay.Keeps, Event.allSelfContained_iff]

namespace Store

variable {s : Store}

theorem selfContained_iff : s.SelfContained ↔ s.Keeps Event.SelfContained .selfContained where
  mp h := ⟨h.context, fun b es found => Event.allSelfContained_iff.1 (h.bodies b es found),
    fun id => Replay.selfContained_iff.1 (h.replay id)⟩
  mpr h := ⟨h.context, fun b es found => Event.allSelfContained_iff.2 (h.bodies b es found),
    fun id => Replay.selfContained_iff.2 (h.replay id)⟩

theorem SelfContained.keeps (h : s.SelfContained) : s.Keeps Event.SelfContained .selfContained := selfContained_iff.1 h

theorem SelfContained.body (h : s.SelfContained) (b : BodyId) : Event.AllSelfContained (s.body b) :=
  Event.allSelfContained_iff.2 (h.keeps.body b)

theorem SelfContained.withContext (h : s.SelfContained) {c : Context} (made : c.From .selfContained) :
    SelfContained { s with context := c } := selfContained_iff.2 (h.keeps.withContext made)

theorem SelfContained.setReplay (h : s.SelfContained) (id : Nat) {r : Replay} (kept : r.SelfContained) :
    (s.setReplay id r).SelfContained := selfContained_iff.2 (h.keeps.setReplay id (Replay.selfContained_iff.1 kept))

theorem SelfContained.numbered (h : s.SelfContained) (n : Nat) : SelfContained { s with nextFunction := n } :=
  selfContained_iff.2 (h.keeps.numbered n)

theorem SelfContained.pushFrame (h : s.SelfContained) {frame : Frame} (made : Entries.From .selfContained frame) :
    (s.pushFrame frame).SelfContained := selfContained_iff.2 (h.keeps.pushFrame made)

theorem SelfContained.releaseFrom (h : s.SelfContained) (depth : Nat) : (s.releaseFrom depth).SelfContained :=
  selfContained_iff.2 (h.keeps.releaseFrom depth)

theorem SelfContained.capture (h : s.SelfContained) (b : BodyId) {es : List Event} (kept : Event.AllSelfContained es) :
    (s.capture b es).SelfContained := selfContained_iff.2 (h.keeps.capture b (Event.allSelfContained_iff.1 kept))

theorem SelfContained.close (h : s.SelfContained) (u : Stream) : (u.close s).SelfContained :=
  selfContained_iff.2 (h.keeps.close u)

end Store

theorem Replay.SelfContained.next {r : Replay} {c : Context} (h : r.SelfContained) (made : c.From .selfContained) :
    (∀ e ∈ (r.next c).1, e.SelfContained) ∧ (r.next c).2.1.SelfContained ∧ (r.next c).2.2.From .selfContained := by
  simpa only [Replay.selfContained_iff] using (Replay.selfContained_iff.1 h).next made

/-! ## Evaluation -/

open Store

variable {k : Nat} {u : Stream} {s r : Store}

theorem Expression.eval_selfContained {e : Expression} {v : Value} (h : s.SelfContained) (result : e.eval k s = .ok (v, r)) :
    r.SelfContained ∧ v.From .selfContained := by
  simpa only [selfContained_iff] using e.eval_keeps Stock.suits_selfContained h.keeps result

theorem Attributes.eval_selfContained {as as' : Attributes} (h : s.SelfContained) (result : as.eval k s = .ok (as', r)) :
    r.SelfContained := selfContained_iff.2 (as.eval_keeps Stock.suits_selfContained h.keeps result)

namespace Stream

/-! ## Directives -/

theorem selfContained_drop {ds : List Directive} (u : Stream) (h : s.SelfContained) (directives : Directive.AllSelfContained ds) :
    (drop ds u s).SelfContained := ⟨⟨directives, trivial, trivial⟩, h.close u⟩

theorem selfContained_test {ds : List Directive} (wanted : Bool) (x : Expression) (stream : u.SelfContained)
    (h : s.SelfContained) (directives : Directive.AllSelfContained ds) : (test k wanted x ds u s).SelfContained := by
  unfold test
  split
  · rename_i v r result
    have kept := (Expression.eval_selfContained h result).1
    split
    · exact ⟨⟨directives, trivial, stream⟩, kept⟩
    · exact selfContained_drop u kept directives
  · exact ⟨trivial, h.close u⟩

theorem selfContained_complete {d : Directive} {ds : List Directive} {es : List Event} (u : Stream) (h : s.SelfContained)
    (first : d.SelfContained) (directives : Directive.AllSelfContained ds) (events : Event.AllSelfContained es) :
    (complete d ds es u s).SelfContained := by
  unfold complete
  split
  · exact first.elim
  · exact selfContained_drop u (h.capture _ events) directives
  · exact ⟨⟨directives, trivial, Event.allSelfContained_append events events⟩, h.close u⟩

theorem selfContained_applyDirective {d : Directive} {ds : List Directive} (stream : u.SelfContained) (h : s.SelfContained)
    (first : d.SelfContained) (directives : Directive.AllSelfContained ds) :
    (applyDirective k d ds u s).SelfContained := by
  unfold applyDirective
  split
  case h_2 | h_7 => exact selfContained_test _ _ stream h directives
  case h_4 | h_6 => exact ⟨⟨directives, trivial, by rintro _ ⟨⟩, stream⟩, h⟩
  case h_9 body matched =>
    have closed := h.close u
    have frame : Entries.From .selfContained [("select", .function ⟨(u.close s).nextFunction, .select matched⟩)] :=
      .cons first .nil
    exact ⟨⟨directives, trivial, frame, closed.body body⟩, closed.numbered _⟩
  case h_10 => exact selfContained_complete u h first directives trivial
  all_goals exact ⟨⟨directives, trivial, stream⟩, h⟩

/-! ## Loops -/

theorem selfContained_startLoop (targets : List Text) (items : Expression) (stream : u.SelfContained) (h : s.SelfContained) :
    (startLoop k targets items u s).SelfContained := by
  unfold startLoop
  split
  · exact ⟨stream, h⟩
  · rename_i v r result
    obtain ⟨kept, made⟩ := Expression.eval_selfContained h result
    split
    · exact ⟨stream, kept⟩
    · split
      · rename_i vs found
        exact ⟨⟨made.items found, trivial, stream⟩, kept⟩
      · exact ⟨stream, kept⟩

theorem selfContained_stepLoop {targets : List Text} {items : List Value} {body? : Option (List Event)}
    {current? : Option (Nat × List Event)} (stream : (looping targets items body? current? u).SelfContained)
    (h : s.SelfContained) : (stepLoop targets items body? current? u s).SelfContained := by
  obtain ⟨made, body, current, stream⟩ := stream
  unfold stepLoop
  split
  · rename_i depth e es
    obtain ⟨first, rest⟩ := current _ rfl
    exact ⟨first, ⟨made, body, by rintro _ ⟨⟩; exact rest, stream⟩, h⟩
  · exact ⟨⟨made, body, by simp, stream⟩, h.releaseFrom _⟩
  · exact ⟨⟨by simp, body, by simp, stream⟩, h⟩
  · rename_i item items
    obtain ⟨first, rest⟩ := List.forall_mem_cons.1 made
    unfold startIteration
    split
    · exact ⟨⟨rest, body, by simp, stream⟩, h⟩
    · rename_i frame bound
      have pushed := h.pushFrame (loopFrame_from first bound)
      dsimp only
      split
      · rename_i es
        exact ⟨⟨rest, body, by rintro _ ⟨⟩; exact body es rfl, stream⟩, pushed⟩
      · exact ⟨⟨rest, body, by rintro _ ⟨⟩; trivial, stream⟩, pushed⟩

/-! ## Attributes and tags of an element -/

theorem selfContained_mergeInto (x : Expression) {first : Event} (event : first.SelfContained) (stream : u.SelfContained)
    (h : s.SelfContained) : (mergeInto k x first u s).SelfContained := by
  unfold mergeInto
  split
  · split
    · exact ⟨stream, h⟩
    · rename_i v r result
      have kept := (Expression.eval_selfContained h result).1
      split
      · split
        · exact ⟨event, stream, kept⟩
        · exact ⟨stream, kept⟩
      · exact ⟨event, stream, kept⟩
  · exact ⟨event, stream, h⟩

theorem selfContained_stepContent (x : Expression) {phase : ContentPhase} {a : Advance}
    (held : ∀ e ∈ phase.held?, e.SelfContained) (h : a.SelfContained) : (stepContent x phase a).SelfContained := by
  have none (p : Position) : ∀ e ∈ (ContentPhase.expression p).held?, e.SelfContained := by rintro _ ⟨⟩
  unfold stepContent
  split
  · dsimp only
    split
    · exact ⟨h.1, ⟨none _, h.2.1⟩, h.2.2⟩
    · exact ⟨⟨none _, h.2.1⟩, h.2.2⟩
  · exact ⟨⟨by rintro _ ⟨⟩; exact h.1, h.2.1⟩, h.2.2⟩
  · exact ⟨⟨held, h.2.1⟩, h.2.2⟩
  · exact ⟨⟨held, h.1⟩, h.2⟩
  · exact ⟨held _ rfl, h.1, h.2⟩
  · exact h
  · exact ⟨⟨held, h.1⟩, h.2⟩
  · exact h

theorem selfContained_testStrip (test : Option Expression) (stream : u.SelfContained) (h : s.SelfContained) :
    (testStrip k test u s).SelfContained := by
  have first : (Stream.strip test .first u).SelfContained := ⟨by rintro _ ⟨⟩, stream⟩
  unfold testStrip
  split
  · exact ⟨first, h⟩
  · split
    · rename_i result
      refine ⟨?_, (Expression.eval_selfContained h result).1⟩
      split
      · exact first
      · exact stream
    · exact ⟨stream, h⟩

theorem selfContained_stepStrip (test : Option Expression) {phase : StripPhase} {a : Advance}
    (held : ∀ e ∈ phase.held?, e.SelfContained) (h : a.SelfContained) : (stepStrip test phase a).SelfContained := by
  unfold stepStrip
  split
  · exact ⟨held _ rfl, ⟨by rintro _ ⟨⟩; exact h.1, h.2.1⟩, h.2.2⟩
  · exact ⟨⟨by rintro _ ⟨⟩; exact h.1, h.2.1⟩, h.2.2⟩
  · exact ⟨⟨by rintro _ ⟨⟩, h.2.1⟩, h.2.2⟩
  · exact ⟨⟨held, h.1⟩, h.2⟩
  · exact h
  · exact ⟨⟨held, h.1⟩, h.2⟩
  · exact ⟨⟨by rintro _ ⟨⟩; trivial, h.1⟩, h.2⟩

/-! ## Filters -/

theorem selfContained_evaluateEvent {e : Event} (event : e.SelfContained) (stream : u.SelfContained) (h : s.SelfContained) :
    (evaluateEvent k e u s).SelfContained := by
  unfold evaluateEvent
  split
  · split
    · rename_i result
      exact ⟨event, stream, Attributes.eval_selfContained h result⟩
    · exact ⟨stream, h⟩
  · split
    · exact ⟨stream, h⟩
    · rename_i result
      exact ⟨⟨trivial, stream⟩, (Expression.eval_selfContained h result).1⟩
    · rename_i result
      have kept := (Expression.eval_selfContained h result).1
      split
      · exact ⟨stream, kept⟩
      · exact ⟨trivial, stream, kept⟩
  · exact ⟨event, stream, h⟩

theorem selfContained_stepTidied (text? : Option (Position × Text)) {a : Advance} (h : a.SelfContained) :
    (stepTidied text? a).SelfContained := by
  have none : ∀ e ∈ (none : Option Event), e.SelfContained := by simp
  unfold stepTidied
  split
  · exact ⟨⟨none, h.2.1⟩, h.2.2⟩
  · split
    · exact ⟨trivial, ⟨by rintro _ ⟨⟩; exact h.1, h.2.1⟩, h.2.2⟩
    · exact ⟨h.1, ⟨none, h.2.1⟩, h.2.2⟩
  · exact ⟨⟨none, h.1⟩, h.2⟩
  · split
    · exact ⟨trivial, ⟨none, h.1⟩, h.2⟩
    · exact ⟨⟨none, h.1⟩, h.2⟩
  · exact ⟨⟨none, h.1⟩, h.2⟩

theorem selfContained_substitution (p : Position) (body : BodyId) {matched : List Event}
    (events : Event.AllSelfContained matched) : (substitution p body matched.reverse).SelfContained :=
  ⟨⟨Event.allSelfContained_reverse events, trivial⟩, trivial⟩

theorem selfContained_stepSubstituted (path : Path) (body : BodyId) (openElements : List Event) {a : Advance}
    (h : a.SelfContained) : (stepSubstituted path body openElements a).SelfContained := by
  unfold stepSubstituted
  split
  · split
    · split
      · exact ⟨⟨⟨h.1, trivial⟩, h.2.1⟩, h.2.2⟩
      · exact h
    · split <;> exact h
  · exact h.map fun _ kept => kept

theorem selfContained_stepMatching (path : Path) (body : BodyId) (openElements : List Event) (p : Position) (depth : Nat)
    {matched : List Event} (events : Event.AllSelfContained matched) {a : Advance} (h : a.SelfContained) :
    (stepMatching path body openElements p depth matched a).SelfContained := by
  unfold stepMatching
  split
  · rename_i e v q
    have more : Event.AllSelfContained (e :: matched) := ⟨h.1, events⟩
    dsimp only
    generalize (if e.isStart then depth + 1 else if e.isEnd then depth - 1 else depth) = depth
    split
    · exact ⟨selfContained_substitution p body more, h.2.1, h.2.2⟩
    · exact ⟨⟨more, h.2.1⟩, h.2.2⟩
  · exact ⟨⟨events, h.1⟩, h.2⟩
  · exact ⟨selfContained_substitution p body events, h.1, h.2⟩
  · exact h

/-- Declarations of the include namespace are dropped, and there are no include elements. -/
theorem selfContained_stepIncluded (filename : Text) (prefixes : List Text) {a : Advance} (h : a.SelfContained) :
    (stepIncluded filename prefixes a).SelfContained := by
  unfold stepIncluded
  split
  · split
    · exact h.2
    · exact h
  · split
    · exact h.2
    · exact h
  · rename_i p name as v q
    have other : ¬ name.same includeName = true := by rw [h.1]; simp
    rw [if_neg other]
    exact h
  · exact h.map fun _ kept => kept

theorem selfContained_stepExpanded (t : Template) (last : Position) {a : Advance} (h : a.SelfContained) :
    (stepExpanded t last a).SelfContained := by
  unfold stepExpanded
  split
  · rename_i p directives events v q
    obtain ⟨⟨ds, es⟩, stream, store⟩ := h
    refine ⟨⟨selfContained_filtered.2 ?_, stream⟩, store⟩
    exact ⟨Directive.allSelfContained_reverse ds, trivial, es⟩
  · exact h
  · exact h
  · exact ⟨trivial, Store.SelfContained.close h.2 _⟩
  · exact h

/-! ## All streams -/

theorem selfContained_stepReplay {q : Replay} (stream : q.SelfContained) (h : s.SelfContained) :
    (stepReplay q .replay s).SelfContained := by
  obtain ⟨event, replay, context⟩ := Replay.SelfContained.next stream h.context
  unfold stepReplay
  generalize q.next s.context = next at event replay context
  obtain ⟨e?, q', c⟩ := next
  cases e? with
  | none => exact ⟨replay, h.withContext context⟩
  | some e => exact ⟨event e rfl, replay, h.withContext context⟩

theorem selfContained_stepShared (id : Nat) (h : s.SelfContained) : (stepShared id s).SelfContained := by
  obtain ⟨event, replay, context⟩ := (h.replay id).next h.context
  unfold stepShared
  generalize (s.replay id).next s.context = next at event replay context
  obtain ⟨e?, q, c⟩ := next
  have after := (h.setReplay id replay).withContext context
  cases e? with
  | none => exact ⟨trivial, after⟩
  | some e => exact ⟨event e rfl, trivial, after⟩

/-- **What is self-contained stays so with every step.** -/
theorem step_selfContained (k : Nat) (stream : u.SelfContained) (h : s.SelfContained) : (step k u s).SelfContained := by
  induction u generalizing s with
  | replay q => exact selfContained_stepReplay stream h
  | shared id => exact selfContained_stepShared id h
  | ended u => exact ⟨stream, h⟩
  | loop targets items u => exact selfContained_startLoop targets items stream h
  | looping targets items body? current? u => exact selfContained_stepLoop stream h
  | append first rest ih =>
    have inner := ih stream.1 h
    simp only [step]
    split
    · rename_i result
      rw [result] at inner
      exact ⟨stream.2, inner.2.close _⟩
    · exact inner.map fun _ kept => ⟨kept, stream.2⟩
  | gathering targets items body u ih =>
    obtain ⟨made, events, stream⟩ := stream
    have inner := ih stream h
    simp only [step]
    split <;> rename_i result <;> rw [result] at inner
    · exact ⟨⟨made, ⟨inner.1, events⟩, inner.2.1⟩, inner.2.2⟩
    · exact ⟨⟨made, events, inner.1⟩, inner.2⟩
    · exact ⟨⟨made, by rintro _ ⟨⟩; exact Event.allSelfContained_reverse events, by simp, inner.1⟩, inner.2⟩
    · exact ⟨⟨made, by simp, by simp, inner.1⟩, inner.2⟩
  | attributes x u ih =>
    have inner := ih stream h
    simp only [step]
    split
    · rename_i result
      rw [result] at inner
      exact selfContained_mergeInto x inner.1 inner.2.1 inner.2.2
    · rename_i result
      rw [result] at inner
      exact inner
    · exact inner
  | content x phase u ih =>
    obtain ⟨held, stream⟩ := stream
    cases phase with
    | expression p => exact ⟨trivial, ⟨by rintro _ ⟨⟩, stream⟩, h⟩
    | start | last => exact selfContained_stepContent x held (ih stream h)
  | replaced x u ih =>
    have inner := ih stream h
    simp only [step]
    split
    · rename_i result
      rw [result] at inner
      exact ⟨trivial, inner.2⟩
    · rename_i result
      rw [result] at inner
      exact inner
    · exact inner.map fun _ kept => kept
  | strip test phase u ih =>
    obtain ⟨held, stream⟩ := stream
    cases phase with
    | untested => exact selfContained_testStrip test stream h
    | first | second | holding => exact selfContained_stepStrip test held (ih stream h)
  | directed ds read u ih =>
    obtain ⟨directives, events, stream⟩ := stream
    cases ds with
    | nil => exact ⟨stream, h⟩
    | cons d ds =>
      have inner := ih stream h
      simp only [step]
      split
      · split <;> rename_i result <;> rw [result] at inner
        · exact ⟨⟨directives, ⟨inner.1, events⟩, inner.2.1⟩, inner.2.2⟩
        · exact ⟨⟨directives, events, inner.1⟩, inner.2⟩
        · exact selfContained_complete _ inner.2 directives.1 directives.2 (Event.allSelfContained_reverse events)
        · exact ⟨trivial, inner.2.close _⟩
      · exact selfContained_applyDirective stream h directives.1 directives.2
  | evaluated u ih =>
    have inner := ih stream h
    simp only [step]
    split
    · rename_i result
      rw [result] at inner
      exact selfContained_evaluateEvent inner.1 inner.2.1 inner.2.2
    · rename_i result
      rw [result] at inner
      exact ⟨trivial, inner.2.close _⟩
    · exact inner.map fun _ kept => kept
  | tidied pending? text? u ih =>
    obtain ⟨held, stream⟩ := stream
    cases pending? with
    | some e => exact ⟨held e rfl, ⟨by simp, stream⟩, h⟩
    | none => exact selfContained_stepTidied text? (ih stream h)
  | substituted path body openElements u ih => exact selfContained_stepSubstituted path body openElements (ih stream h)
  | matching path body openElements p depth matched u ih =>
    exact selfContained_stepMatching path body openElements p depth stream.1 (ih stream.2 h)
  | included filename prefixes u ih => exact selfContained_stepIncluded filename prefixes (ih stream h)
  | including | inserting => exact stream.elim
  | expanded t last u ih => exact selfContained_stepExpanded t last (ih stream h)

/-! ## Enough fuel -/

section

variable (le : Function.enough ≤ k)
include le

theorem eval_enough (h : s.SelfContained) (x : Expression) : x.eval k s = x.eval Function.enough s :=
  Expression.eval_enough (allows_keeps Stock.suits_selfContained) Stock.built_selfContained h.keeps le x

theorem test_enough (h : s.SelfContained) (wanted : Bool) (x : Expression) (ds : List Directive) :
    test k wanted x ds u s = test Function.enough wanted x ds u s := by
  unfold test
  rw [eval_enough le h]

theorem applyDirective_enough (h : s.SelfContained) (d : Directive) (ds : List Directive) :
    applyDirective k d ds u s = applyDirective Function.enough d ds u s := by
  unfold applyDirective
  split
  case h_2 | h_7 => exact test_enough le h _ _ ds
  all_goals rfl

theorem evaluateEvent_enough (h : s.SelfContained) (e : Event) :
    evaluateEvent k e u s = evaluateEvent Function.enough e u s := by
  unfold evaluateEvent
  split
  · rw [Attributes.eval_enough (allows_keeps Stock.suits_selfContained) Stock.built_selfContained h.keeps le]
  · rw [eval_enough le h]
  · rfl

/-- **With more than enough fuel, a step is the same.** -/
theorem step_enough (stream : u.SelfContained) (h : s.SelfContained) : step k u s = step Function.enough u s := by
  induction u generalizing s with
  | replay | shared | ended | looping => rfl
  | including | inserting => exact stream.elim
  | loop targets items u =>
    simp only [step, startLoop]
    rw [eval_enough le h]
  | append first rest ih =>
    simp only [step]
    rw [ih stream.1 h]
  | gathering targets items body u ih =>
    simp only [step]
    rw [ih stream.2.2 h]
  | replaced x u ih | substituted path body openElements u ih | included filename prefixes u ih | expanded t last u ih =>
    simp only [step]
    rw [ih stream h]
  | matching path body openElements p depth matched u ih =>
    simp only [step]
    rw [ih stream.2 h]
  | attributes x u ih =>
    have inner := step_selfContained (u := u) Function.enough stream h
    simp only [step]
    rw [ih stream h]
    split
    · rename_i result
      rw [result] at inner
      unfold mergeInto
      rw [eval_enough le inner.2.2]
    · rfl
    · rfl
  | content x phase u ih =>
    cases phase with
    | expression p => rfl
    | start | last =>
      simp only [step]
      rw [ih stream.2 h]
  | strip test phase u ih =>
    cases phase with
    | untested =>
      simp only [step, testStrip]
      split
      · rfl
      · rw [eval_enough le h]
    | first | second | holding =>
      simp only [step]
      rw [ih stream.2 h]
  | directed ds read u ih =>
    cases ds with
    | nil => rfl
    | cons d ds =>
      simp only [step]
      rw [ih stream.2.2 h, applyDirective_enough le h]
  | evaluated u ih =>
    have inner := step_selfContained (u := u) Function.enough stream h
    simp only [step]
    rw [ih stream h]
    split
    · rename_i result
      rw [result] at inner
      exact evaluateEvent_enough le inner.2.2 _
    · rfl
    · rfl
  | tidied pending? text? u ih =>
    cases pending? with
    | some e => rfl
    | none =>
      simp only [step]
      rw [ih stream.2 h]

end

/-! ## Runs -/

theorem Run.selfContained {es : List Event} {v : Stream} (run : Run k u s es v r) (stream : u.SelfContained)
    (h : s.SelfContained) : v.SelfContained ∧ r.SelfContained := by
  induction run with
  | refl => exact ⟨stream, h⟩
  | skip first _ ih =>
    have next := step_selfContained k stream h
    rw [first] at next
    exact ih next.1 next.2
  | yield first _ ih =>
    have next := step_selfContained k stream h
    rw [first] at next
    exact ih next.2.1 next.2.2

end Stream

end Stencil
