import Stencil.Proofs.Expr.Effect
import Stencil.Proofs.Path.Selection
import Stencil.Proofs.Stream.Layers
import Stencil.Proofs.Stream.Remaining
import Stencil.Proofs.Template.Capture

/-!
# Faithful streams and stores

While a template is expanded, its events move about: into streams, into functions that select from
matched elements, into captured bodies and out of them again. A store and a stream are faithful if all
these events are, and if a function that a template has defined is only at hand when its body has been
captured, which the function's own `def` directive does before it binds the function.
-/

namespace Stencil

/-- What is known of a store: which events are captured in some slots, and the number from which on the
streams that are values are looked at. -/
structure Known where
  bodies : Bodies
  firstStream : Nat

instance : Coe Known Bodies := ⟨Known.bodies⟩

instance : CoeFun Known fun _ => Bodies := ⟨Known.bodies⟩

/-- Something has been captured in the slot. -/
def Store.full (s : Store) (b : BodyId) : Prop := (s.captured? b).isSome = true

theorem Store.full_congr {s s' : Store} (same : s'.bodies = s.bodies) : s'.full = s.full := by
  funext b
  unfold full captured?
  rw [same]

/-- Functions that find their events: those of a known slot once it is full, and selections from faithful
events. -/
def Stock.callable (known : Known) (full : BodyId → Prop) : Stock where
  function f := match f.kind with
    | .template _ body => known body ≠ none → full body
    | .select matched => Event.AllFaithful known matched
    | _ => True
  stream id := known.firstStream ≤ id

theorem Stock.callable_mono {known : Known} {full full' : BodyId → Prop} (h : ∀ b, full b → full' b) :
    Stock.callable known full ≤ Stock.callable known full' where
  function := by
    rintro ⟨id, kind⟩ made
    cases kind with
    | template signature body => exact fun isKnown => h body (made isKnown)
    | select matched => exact made
    | _ => trivial
  stream := fun _ live => live

/-! ## Streams -/

/-- The events of a replay are faithful, and its frame is made of callable functions. -/
def Replay.Faithful (known : Known) (full : BodyId → Prop) : Replay → Prop
  | plain es | running _ es => Event.AllFaithful known es
  | waiting frame es => Entries.From (.callable known full) frame ∧ Event.AllFaithful known es
  | finished => True

/-- The event that is kept while an element's content is replaced. -/
def ContentPhase.held? : ContentPhase → Option Event
  | last latest? => latest?
  | _ => none

/-- The event that is kept while an element's tags are removed. -/
def StripPhase.held? : StripPhase → Option Event
  | holding e => some e
  | _ => none

namespace Stream

/-- The directive reads its element, at least where nothing has been captured. -/
def Gathers (d : Directive) : Prop := d.slot?.isSome = true ∨ ∃ kind e?, kind.effect = .twice ∧ d = .extension kind e?

theorem gathers_of_needs {d : Directive} {s : Store} (h : needsEvents d s = true) : Gathers d := by
  cases d with
  | define | capture => exact .inl rfl
  | extension kind e? =>
    rcases kind with ⟨name, number, _ | _⟩
    · cases h
    · exact .inr ⟨⟨name, number, .twice⟩, e?, rfl, rfl⟩
  | _ => cases h

/-- Directives that will capture what is known, given what was read of the stream so far. -/
def Applying (known : Known) (ds : List Directive) (read : List Event) (u : Stream) : Prop :=
  Directive.Free known ds ∨ ∃ es, u.remaining = some es ∧ Directive.Settled known ds (read.reverse ++ es) ∧
    (read = [] ∨ ∃ d ∈ ds.head?, Gathers d)

/-- All events in the stream are faithful, and its values are made of callable functions. -/
def Faithful (known : Known) (full : BodyId → Prop) : Stream → Prop
  | replay r => r.Faithful known full
  | shared id => known.firstStream ≤ id
  | append first rest => first.Faithful known full ∧ rest.Faithful known full
  | gathering _ items body u =>
    (∀ v ∈ items, v.From (.callable known full)) ∧ Event.AllFaithful known body ∧ u.Faithful known full
  | looping _ items body? current? u =>
    (∀ v ∈ items, v.From (.callable known full)) ∧ (∀ body ∈ body?, Event.AllFaithful known body) ∧
      (∀ c ∈ current?, Event.AllFaithful known c.2) ∧ u.Faithful known full
  | content _ phase u => (∀ e ∈ phase.held?, e.Faithful known) ∧ u.Faithful known full
  | strip _ phase u => (∀ e ∈ phase.held?, e.Faithful known) ∧ u.Faithful known full
  | directed ds read u =>
    Directive.AllFaithful known ds ∧ Event.AllFaithful known read ∧ Applying known ds read u ∧ u.Bare ∧
      u.Faithful known full
  | tidied pending? _ u => (∀ e ∈ pending?, e.Faithful known) ∧ u.Faithful known full
  | matching _ _ _ _ _ matched u => Event.AllFaithful known matched ∧ u.Faithful known full
  | including _ _ i u => (∀ es ∈ i.fallback?, Event.AllFaithful known es) ∧ u.Faithful known full
  | inserting _ _ _ inserted u => inserted.Faithful known full ∧ u.Faithful known full
  | ended u | loop _ _ u | attributes _ u | replaced _ u | evaluated u | substituted _ _ _ u | included _ _ u
  | expanded _ _ u => u.Faithful known full

end Stream

section

variable {known : Known} {full full' : BodyId → Prop}

theorem Replay.Faithful.mono (le : ∀ b, full b → full' b) {r : Replay} (h : r.Faithful known full) :
    r.Faithful known full' := by
  cases r with
  | waiting frame es => exact ⟨h.1.mono (Stock.callable_mono le), h.2⟩
  | plain | running => exact h
  | finished => trivial

/-- What is faithful stays so when more is captured. -/
theorem Stream.Faithful.mono (le : ∀ b, full b → full' b) {u : Stream} (h : u.Faithful known full) :
    u.Faithful known full' := by
  have larger {vs : List Value} (made : ∀ v ∈ vs, v.From (.callable known full)) : ∀ v ∈ vs, v.From (.callable known full') :=
    fun v hv => (made v hv).mono (Stock.callable_mono le)
  induction u with
  | replay r => exact Replay.Faithful.mono le h
  | shared => exact h
  | append first rest ih ih' => exact ⟨ih h.1, ih' h.2⟩
  | inserting filename prefixes n inserted u ih ih' => exact ⟨ih h.1, ih' h.2⟩
  | gathering targets items body u ih => exact ⟨larger h.1, h.2.1, ih h.2.2⟩
  | looping targets items body? current? u ih => exact ⟨larger h.1, h.2.1, h.2.2.1, ih h.2.2.2⟩
  | directed ds read u ih => exact ⟨h.1, h.2.1, h.2.2.1, h.2.2.2.1, ih h.2.2.2.2⟩
  | content x phase u ih => exact ⟨h.1, ih h.2⟩
  | strip test phase u ih => exact ⟨h.1, ih h.2⟩
  | tidied pending? text? u ih => exact ⟨h.1, ih h.2⟩
  | matching path body openElements p depth matched u ih => exact ⟨h.1, ih h.2⟩
  | including filename prefixes i u ih => exact ⟨h.1, ih h.2⟩
  | ended u ih | loop targets items u ih | attributes x u ih | replaced x u ih | evaluated u ih
  | substituted path body openElements u ih | included filename prefixes u ih | expanded t last u ih => exact ih h

theorem Stream.faithful_ofEvents {es : List Event} (h : Event.AllFaithful known es) :
    (Stream.ofEvents es).Faithful known full := h

theorem Stream.faithful_filtered {fs : List Filter} {u : Stream} :
    (u.filtered fs).Faithful known full ↔ u.Faithful known full := by
  induction fs generalizing u with
  | nil => rfl
  | cons f fs ih =>
    change (Stream.filtered fs (f.apply u)).Faithful known full ↔ _
    rw [ih]
    cases f with
    | tidy => simp [Filter.apply, Stream.Faithful]
    | _ => rfl

theorem Template.faithful_expansion {t : Template} (h : Event.AllFaithful known t.events) :
    t.expansion.Faithful known full :=
  Stream.faithful_filtered.2 (Stream.faithful_filtered.2 h)

end

/-! ## Stores -/

/-- All events in the store are faithful, slots hold what is known to be captured in them, and functions
are callable. Old streams are of no matter. -/
structure Store.Faithful (known : Known) (s : Store) : Prop where
  kept : ∀ b es, s.captured? b = some es → ∀ body, known b = some body → body = es
  bodies : ∀ b es, s.captured? b = some es → Event.AllFaithful known es
  context : s.context.From (.callable known s.full)
  replay : ∀ id, known.firstStream ≤ id → (s.replay id).Faithful known s.full
  streams : known.firstStream ≤ s.replays.size
  holdings : ∀ l ∈ s.library?, ∀ h ∈ l.holdings, Event.AllFaithful known h.2.template.events
  numbers : ∀ b, s.nextTemplate ≤ b.template → known b = none

namespace Store

variable {known : Known} {s : Store}

theorem Faithful.body (h : s.Faithful known) (b : BodyId) : Event.AllFaithful known (s.body b) := by
  unfold Store.body
  cases found : s.captured? b with
  | none => trivial
  | some es => exact h.bodies b es found

theorem Faithful.withContext (h : s.Faithful known) {c : Context} (made : c.From (.callable known s.full)) :
    Faithful known { s with context := c } :=
  ⟨h.kept, h.bodies, made, h.replay, h.streams, h.holdings, h.numbers⟩

theorem Faithful.setReplay (h : s.Faithful known) (id : Nat) {r : Replay}
    (faithful : known.firstStream ≤ id → r.Faithful known s.full) : (s.setReplay id r).Faithful known := by
  refine ⟨h.kept, h.bodies, h.context, fun j live => ?_, ?_, h.holdings, h.numbers⟩
  · unfold Store.setReplay Store.replay
    rw [Array.getElem?_setIfInBounds]
    split
    · rename_i same
      split
      · exact faithful (same ▸ live)
      · trivial
    · exact h.replay j live
  · unfold Store.setReplay
    rw [Array.size_setIfInBounds]
    exact h.streams

theorem Faithful.newStream (h : s.Faithful known) {r : Replay} (faithful : r.Faithful known s.full) :
    (s.newStream r).2.Faithful known := by
  refine ⟨h.kept, h.bodies, h.context, fun j live => ?_, ?_, h.holdings, h.numbers⟩
  · unfold Store.newStream Store.replay
    dsimp only
    rw [Array.getElem?_push]
    split
    · exact faithful
    · exact h.replay j live
  · have streams := h.streams
    unfold Store.newStream
    dsimp only
    rw [Array.size_push]
    omega

theorem Faithful.numbered (h : s.Faithful known) (n : Nat) : Faithful known { s with nextFunction := n } :=
  ⟨h.kept, h.bodies, h.context, h.replay, h.streams, h.holdings, h.numbers⟩

theorem Faithful.report (h : s.Faithful known) (level : LogLevel) (message : Text) :
    (s.report level message).Faithful known :=
  ⟨h.kept, h.bodies, h.context, h.replay, h.streams, h.holdings, h.numbers⟩

theorem Faithful.pushFrame (h : s.Faithful known) {frame : Frame} (made : Entries.From (.callable known s.full) frame) :
    (s.pushFrame frame).Faithful known := h.withContext (h.context.push made)

theorem Faithful.releaseFrom (h : s.Faithful known) (depth : Nat) : (s.releaseFrom depth).Faithful known :=
  h.withContext h.context.releaseFrom

/-! ## Replays -/

/-- A replay hands on faithful events, and the frames it pushes are made of callable functions. -/
theorem faithful_next {full : BodyId → Prop} {r : Replay} {c : Context} (h : r.Faithful known full)
    (made : c.From (.callable known full)) :
    (∀ e ∈ (r.next c).1, e.Faithful known) ∧ (r.next c).2.1.Faithful known full ∧
      (r.next c).2.2.From (.callable known full) := by
  cases r with
  | plain es =>
    cases es with
    | nil => exact ⟨by simp [Replay.next], h, made⟩
    | cons e es => exact ⟨by simp [Replay.next, h.1], h.2, made⟩
  | waiting frame es =>
    cases es with
    | nil => exact ⟨by simp [Replay.next], trivial, (made.push h.1).releaseFrom⟩
    | cons e es => exact ⟨by simp [Replay.next, h.2.1], h.2.2, made.push h.1⟩
  | running depth es =>
    cases es with
    | nil => exact ⟨by simp [Replay.next], trivial, made.releaseFrom⟩
    | cons e es => exact ⟨by simp [Replay.next, h.1], h.2, made⟩
  | finished => exact ⟨by simp [Replay.next], trivial, made⟩

end Store

/-! ## Closing -/

theorem Store.Faithful.close {known : Known} {s : Store} (h : s.Faithful known) (u : Stream) :
    (u.close s).Faithful known :=
  Stream.close_keeps (P := Store.Faithful known) (fun _ d h => h.releaseFrom d) u h

theorem Store.Faithful.giveUp {known : Known} {s : Store} (h : s.Faithful known) (u : Stream) :
    (u.giveUp s).Faithful known :=
  Stream.giveUp_keeps (P := Store.Faithful known) (fun _ d h => h.releaseFrom d)
    (fun _ id h => h.setReplay id fun _ => trivial) u h

end Stencil
