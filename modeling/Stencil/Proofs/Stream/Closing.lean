import Stencil.Proofs.Expr.Effect
import Stencil.Proofs.Path.Selection
import Stencil.Proofs.Stream.Faithful
import Stencil.Proofs.Stream.Scope
import Stencil.Proofs.Template.Proper

/-!
# Streams that close what is open

While a stream is read, some elements are open. What is left of the stream has to close them, the inmost
one first, and may open and close others on the way (`Stream.Closes`). For a stream that is a value this
depends on how far it has been read, so a stream closes what it should only as long as no stream that is a
value is read in two of its places (`Stream.reads`), and what is not being read has to close nothing, being
unread or read to its end (`Store.Idle`).
-/

namespace Stencil

/-- The events are proper, close the open elements and leave nothing open. -/
def Event.Closing (trust : Trust) (ns : List Text) (es : List Event) : Prop :=
  Event.pairAll ns es = some [] ∧ Event.AllProper trust es

/-- Functions that replay or select paired events, and the streams of this expansion. -/
def Stock.paired (trust : Trust) : Stock where
  function f := match f.kind with
    | .template _ body => trust.body body
    | .select matched => Event.Closing trust [] matched
    | _ => True
  stream id := trust.firstStream ≤ id

/-! ## Replays -/

namespace Replay

/-- The events that are left. -/
def left : Replay → List Event
  | plain es | waiting _ es | running _ es => es
  | finished => []

/-- What is left closes the open elements; the frame is made of functions that do so. -/
def Closes (trust : Trust) (r : Replay) (ns : List Text) : Prop :=
  Event.Closing trust ns r.left ∧ ∀ frame es, r = waiting frame es → Entries.From (.paired trust) frame

variable {trust : Trust} {r : Replay} {ns ns' : List Text} {c : Context}

theorem closes_finished : finished.Closes trust [] := ⟨⟨rfl, trivial⟩, by simp⟩

theorem closes_plain {es : List Event} (h : Event.Closing trust ns es) : (plain es).Closes trust ns := ⟨h, by simp⟩

/-- When nothing is left, nothing is open. -/
theorem Closes.of_left (h : r.Closes trust ns) (none : r.left = []) : ns = [] := by
  have paired := h.1.1
  rw [none] at paired
  exact Option.some.inj paired

/-- A replay yields the first of what it has left. -/
theorem left_eq (r : Replay) (c : Context) : r.left = (r.next c).1.toList ++ (r.next c).2.1.left := by
  cases r with
  | plain es | waiting frame es | running depth es => cases es <;> rfl
  | finished => rfl

/-- The frame that a replay pushes is made of functions that close what is open. -/
theorem Closes.context (h : r.Closes trust ns) (made : c.From (.paired trust)) : (r.next c).2.2.From (.paired trust) := by
  cases r with
  | plain es => cases es <;> exact made
  | waiting frame es =>
    cases es with
    | nil => exact (made.push (h.2 frame [] rfl)).releaseFrom
    | cons e es => exact made.push (h.2 frame (e :: es) rfl)
  | running depth es =>
    cases es with
    | nil => exact made.releaseFrom
    | cons e es => exact made
  | finished => exact made

/-- The frame of a replay is pushed with the first event. -/
theorem Closes.rest (h : r.Closes trust ns) (closing : Event.Closing trust ns' (r.next c).2.1.left) :
    (r.next c).2.1.Closes trust ns' := by
  refine ⟨closing, ?_⟩
  cases r with
  | plain es | waiting frame es | running depth es => cases es <;> simp [Replay.next]
  | finished => simp [Replay.next]

/-- At its end, a replay has nothing left, and nothing is open. -/
theorem Closes.ended (h : r.Closes trust ns) (none : (r.next c).1 = none) :
    ns = [] ∧ r.left = [] ∧ (r.next c).2.1.Closes trust [] := by
  have nothing : (r.next c).2.1.left = [] := by
    cases r with
    | plain es | waiting frame es | running depth es =>
      cases es with
      | nil => rfl
      | cons => cases none
    | finished => rfl
  have left := r.left_eq c
  rw [none, nothing] at left
  refine ⟨h.of_left left, left, h.rest ?_⟩
  rw [nothing]
  exact ⟨rfl, trivial⟩

/-- A replay yields an event that fits what is open. -/
theorem Closes.yields (h : r.Closes trust ns) {e : Event} (next : (r.next c).1 = some e) :
    e.Proper trust ∧ ∃ after, e.pair ns = some after ∧ (r.next c).2.1.Closes trust after := by
  have left := r.left_eq c
  rw [next] at left
  obtain ⟨paired, proper⟩ := h.1
  rw [left] at paired proper
  obtain ⟨after, first, rest⟩ := Event.pairAll_cons_some paired
  exact ⟨proper.1, after, first, h.rest ⟨rest, proper.2⟩⟩

end Replay

/-! ## Streams -/

namespace Stream

/-- The events of an element that no directive but `attrs` has been applied to. -/
def element? : Stream → Option (List Event)
  | replay (.plain es) => some es
  | attributes _ u => u.element?
  | _ => none

/-- An element that directives have been applied to closes the open elements. What removes or keeps the tags
of an element does so as it is applied to the element as a whole. -/
def ClosesBare (trust : Trust) : Stream → List Text → Prop
  | replay r, ns => r.Closes trust ns
  | ended u, ns => ns = [] ∧ u.Bare
  | loop _ _ u, ns => ns = [] ∧ u.ClosesBare trust []
  | gathering _ items body u, ns =>
    ns = [] ∧ (∀ v ∈ items, v.From (.paired trust)) ∧ Event.AllProper trust body ∧
      ∃ inner, Event.pairAll [] body.reverse = some inner ∧ u.ClosesBare trust inner
  | looping _ items body? current? u, ns =>
    (∀ v ∈ items, v.From (.paired trust)) ∧ (∀ body ∈ body?, Event.Closing trust [] body) ∧
      Event.Closing trust ns ((current?.map (·.2)).getD []) ∧ u.Bare
  | attributes _ u, ns => u.ClosesBare trust ns
  | replaced _ u, ns => ns = [] ∧ u.ClosesBare trust []
  | content _ phase u, ns => ∃ es, u.element? = some es ∧ Event.AllProper trust es ∧ match phase with
    | .start => ns = [] ∧ Event.Whole es
    | .expression _ => ∃ q name, es.getLast? = some (.endTag q name) ∧ ns = [name.qualified]
    | .last latest? => ∃ q name, es.getLast?.or latest? = some (.endTag q name) ∧ ns = [name.qualified]
  | strip _ phase u, ns => ∃ es, u.element? = some es ∧ Event.AllProper trust es ∧ match phase with
    | .untested | .first => ns = [] ∧ Event.Whole es
    | .second => ns = [] ∧ Event.Paired es.dropLast
    | .holding e => e.Proper trust ∧ Event.pairAll ns (e :: es).dropLast = some []
  | _, _ => False

/-- What is left of the stream closes the open elements. -/
def Closes (trust : Trust) (s : Store) : Stream → List Text → Prop
  | shared id, ns => (s.replay id).Closes trust ns
  | append first rest, ns => ∃ inner outer, ns = inner ++ outer ∧ first.Closes trust s inner ∧ rest.Closes trust s outer
  | directed ds read u, ns =>
    ns = [] ∧ Directive.AllProper trust ds ∧ Event.AllProper trust read ∧
      ((Directive.keepsPairs true ds = true ∧ read = [] ∧
          ∃ es, u.element? = some es ∧ Event.Whole es ∧ Event.AllProper trust es) ∨
        (Directive.keepsPairs false ds = true ∧ (read = [] ∨ ∃ d ∈ ds.head?, Gathers d) ∧
          ∃ inner, Event.pairAll [] read.reverse = some inner ∧ u.ClosesBare trust inner))
  | evaluated u, ns => u.Closes trust s ns
  | tidied pending? _ u, ns => Event.AllProper trust pending?.toList ∧
    ∃ after, Event.pairAll ns pending?.toList = some after ∧ u.Closes trust s after
  | substituted _ body _ u, ns => trust.body body ∧ u.Closes trust s ns
  | matching _ body _ _ depth matched u, ns =>
    trust.body body ∧ Event.AllProper trust matched ∧
      ∃ inner, inner ≠ [] ∧ inner.length = depth ∧ Event.pairAll [] matched.reverse = some inner ∧
        u.Closes trust s (inner ++ ns)
  | expanded t _ u, ns => (∀ f ∈ t.expansionFilters, f.Proper trust) ∧ u.Closes trust s ns
  | included .., _ | including .., _ | inserting .., _ => False
  | u, ns => u.ClosesBare trust ns

variable {trust : Trust} {s r : Store} {u : Stream} {ns : List Text}

theorem bare_of_element {es : List Event} (h : u.element? = some es) : u.Bare := by
  induction u with
  | replay => trivial
  | attributes x u ih => exact ih h
  | _ => cases h

theorem closesBare_of_element {es : List Event} (h : u.element? = some es) (closing : Event.Closing trust ns es) :
    u.ClosesBare trust ns := by
  induction u with
  | replay q =>
    cases q with
    | plain =>
      cases h
      exact Replay.closes_plain closing
    | _ => cases h
  | attributes x u ih => exact ih h
  | _ => cases h

theorem closesBare_ofEvents {es : List Event} (h : Event.Closing trust ns es) : (ofEvents es).ClosesBare trust ns :=
  Replay.closes_plain h

theorem ClosesBare.bare (h : u.ClosesBare trust ns) : u.Bare := by
  induction u generalizing ns with
  | replay => trivial
  | ended u | looping targets items body? current? u => first | exact h.2 | exact h.2.2.2
  | loop targets items u ih | replaced x u ih => exact ih h.2
  | gathering targets items body u ih =>
    obtain ⟨-, -, -, inner, -, inside⟩ := h
    exact ih inside
  | attributes x u ih => exact ih h
  | content x phase u | strip test phase u =>
    obtain ⟨es, element, -⟩ := h
    have bare : u.Bare := bare_of_element element
    exact bare
  | _ => exact h.elim

theorem ClosesBare.reads (h : u.ClosesBare trust ns) : u.reads = [] := reads_of_bare h.bare

theorem ClosesBare.closes (h : u.ClosesBare trust ns) (s : Store) : u.Closes trust s ns := by
  cases u with
  | replay | ended | loop | gathering | looping | attributes | content | replaced | strip => exact h
  | _ => exact h.elim

/-- What a stream closes does not depend on the streams that it does not read. -/
theorem Closes.mono (h : u.Closes trust s ns)
    (same : ∀ id ∈ u.reads, ∀ ns, (s.replay id).Closes trust ns → (r.replay id).Closes trust ns) : u.Closes trust r ns := by
  induction u generalizing ns with
  | shared id => exact same id (List.mem_singleton_self id) ns h
  | append first rest ih ih' =>
    obtain ⟨inner, outer, rfl, left, right⟩ := h
    exact ⟨inner, outer, rfl, ih left fun id hid => same id (List.mem_append_left _ hid),
      ih' right fun id hid => same id (List.mem_append_right _ hid)⟩
  | evaluated u ih => exact ih h same
  | tidied pending? text? u ih =>
    obtain ⟨proper, after, pending, rest⟩ := h
    exact ⟨proper, after, pending, ih rest same⟩
  | substituted path body openElements u ih | expanded t last u ih => exact ⟨h.1, ih h.2 same⟩
  | matching path body openElements p depth matched u ih =>
    obtain ⟨trusted, proper, inner, isOpen, length, paired, rest⟩ := h
    exact ⟨trusted, proper, inner, isOpen, length, paired, ih rest same⟩
  | included | including | inserting => exact h.elim
  | directed => exact h
  | _ => exact ClosesBare.closes h r

theorem reads_filtered {fs : List Filter} (proper : ∀ f ∈ fs, f.Proper trust) (u : Stream) : (u.filtered fs).reads = u.reads := by
  induction fs generalizing u with
  | nil => rfl
  | cons f fs ih =>
    obtain ⟨first, others⟩ := List.forall_mem_cons.1 proper
    refine (ih others (f.apply u)).trans ?_
    cases f with
    | evaluate | tidy | substitute => rfl
    | inclusion => exact first.elim

theorem closes_filtered {fs : List Filter} (proper : ∀ f ∈ fs, f.Proper trust) (h : u.Closes trust s ns) :
    (u.filtered fs).Closes trust s ns := by
  induction fs generalizing u with
  | nil => exact h
  | cons f fs ih =>
    obtain ⟨first, others⟩ := List.forall_mem_cons.1 proper
    have applied : (f.apply u).Closes trust s ns := by
      cases f with
      | evaluate => exact h
      | tidy => exact ⟨trivial, ns, rfl, h⟩
      | substitute path body => exact ⟨first, h⟩
      | inclusion => exact first.elim
    exact ih others applied

end Stream

/-! ## Stores -/

/-- All bindings are made of functions that replay paired events and of streams of this expansion, and what
is captured in trusted slots is paired. -/
structure Store.Sound (trust : Trust) (s : Store) : Prop where
  context : s.context.From (.paired trust)
  bodies : ∀ b es, trust.body b → s.captured? b = some es → Event.Closing trust [] es
  streams : trust.firstStream ≤ s.replays.size

namespace Store

variable {trust : Trust} {s t r : Store} {ns : List Text}

/-- A stream that closes what is open does so in the second store too. -/
def Grows (trust : Trust) (s r : Store) : Prop :=
  ∀ id ns, (s.replay id).Closes trust ns → (r.replay id).Closes trust ns

/-- The streams of this expansion that are not being read close nothing. -/
def Idle (trust : Trust) (reads : List Nat) (s : Store) : Prop :=
  ∀ id, trust.firstStream ≤ id → id ∉ reads → (s.replay id).Closes trust []

theorem Grows.refl (s : Store) : s.Grows trust s := fun _ _ h => h

theorem Grows.trans (h : s.Grows trust t) (h' : t.Grows trust r) : s.Grows trust r := fun id ns closes => h' id ns (h id ns closes)

theorem grows_of_replays (same : r.replays = s.replays) : s.Grows trust r := by
  intro id ns closes
  unfold Store.replay at closes ⊢
  rw [same]
  exact closes

theorem Idle.grow {reads : List Nat} (h : s.Idle trust reads) (grows : s.Grows trust r) : r.Idle trust reads :=
  fun id own unread => grows id [] (h id own unread)

theorem Sound.withContext (h : s.Sound trust) {c : Context} (made : c.From (.paired trust)) :
    Sound trust { s with context := c } := ⟨made, h.bodies, h.streams⟩

theorem Sound.body (h : s.Sound trust) {b : BodyId} (trusted : trust.body b) : Event.Closing trust [] (s.body b) := by
  unfold Store.body
  cases found : s.captured? b with
  | none => exact ⟨rfl, trivial⟩
  | some es => exact h.bodies b es trusted found

theorem Sound.numbered (h : s.Sound trust) (n : Nat) : Sound trust { s with nextFunction := n } :=
  ⟨h.context, h.bodies, h.streams⟩

theorem Sound.newStream (h : s.Sound trust) (q : Replay) : (s.newStream q).2.Sound trust := by
  refine ⟨h.context, h.bodies, ?_⟩
  have streams := h.streams
  unfold Store.newStream
  dsimp only
  rw [Array.size_push]
  omega

/-- A new stream takes the place of nothing. -/
theorem grows_newStream {q : Replay} (closes : q.Closes trust []) : s.Grows trust (s.newStream q).2 := by
  intro id ns before
  unfold Store.newStream Store.replay
  dsimp only
  rw [Array.getElem?_push]
  split
  · rename_i new
    have nothing : s.replay id = .finished := by
      unfold Store.replay
      rw [new, Array.getElem?_eq_none (Nat.le_refl _)]
      rfl
    rw [nothing] at before
    rw [before.of_left rfl]
    exact closes
  · exact before

theorem Sound.setReplay (h : s.Sound trust) (id : Nat) (q : Replay) : (s.setReplay id q).Sound trust := by
  refine ⟨h.context, h.bodies, ?_⟩
  unfold Store.setReplay
  rw [Array.size_setIfInBounds]
  exact h.streams

/-- Whether there is a stream at the index or not. -/
theorem replay_setReplay_cases (s : Store) (id : Nat) (q : Replay) (j : Nat) :
    (s.setReplay id q).replay j = s.replay j ∨ j = id ∧ (s.setReplay id q).replay j = q := by
  by_cases there : id < s.replays.size
  · rw [replay_setReplay q there]
    split
    · exact .inr ⟨‹_›, rfl⟩
    · exact .inl rfl
  · rw [setReplay_absent q there]
    exact .inl rfl

/-- A stream that has nothing left gets on to another state of that kind. -/
theorem grows_setReplay {id : Nat} {q : Replay} (none : (s.replay id).left = []) (closes : q.Closes trust []) :
    s.Grows trust (s.setReplay id q) := by
  intro j ns before
  rcases replay_setReplay_cases s id q j with same | ⟨rfl, same⟩
  · rwa [same]
  · rw [same, before.of_left none]
    exact closes

/-- A stream that has something left is there. -/
theorem replay_setReplay_self {id : Nat} (q : Replay) (some : (s.replay id).left ≠ []) :
    (s.setReplay id q).replay id = q := by
  have there : id < s.replays.size := by
    by_contra absent
    rw [replay_absent absent] at some
    exact some rfl
  rw [replay_setReplay q there, if_pos rfl]

/-- What is captured in a trusted slot is paired. -/
theorem Sound.capture {b : BodyId} {es : List Event} (h : s.Sound trust) (closing : trust.body b → Event.Closing trust [] es) :
    (s.capture b es).Sound trust := by
  unfold Store.capture
  split
  · exact h
  · refine ⟨h.context, fun b' es' trusted captured => ?_, h.streams⟩
    by_cases same : b = b'
    · subst same
      have found : some es = some es' := by simpa [Store.captured?] using captured
      exact Option.some.inj found ▸ closing trusted
    · refine h.bodies b' es' trusted ?_
      simpa [Store.captured?, same] using captured

theorem replays_capture (s : Store) (b : BodyId) (es : List Event) : (s.capture b es).replays = s.replays := by
  unfold Store.capture
  split <;> rfl

theorem Sound.bindTemplate {signature : Signature} {body : BodyId} (h : s.Sound trust) (trusted : trust.body body) :
    (Stream.bindTemplate signature body s).Sound trust :=
  (h.numbered _).withContext (h.context.set trusted)

/-! ### Closing streams -/

/-- The second store comes after the first one, with no stream read any further. -/
structure Rests (trust : Trust) (s r : Store) : Prop where
  sound : r.Sound trust
  grows : s.Grows trust r

theorem Rests.trans (h : s.Rests trust t) (h' : t.Rests trust r) : s.Rests trust r :=
  ⟨h'.sound, h.grows.trans h'.grows⟩

theorem Sound.rests (h : s.Sound trust) {c : Context} (made : c.From (.paired trust)) :
    s.Rests trust { s with context := c } := ⟨h.withContext made, grows_of_replays rfl⟩

theorem Sound.releases (h : s.Sound trust) (depth : Nat) : s.Rests trust (s.releaseFrom depth) :=
  h.rests h.context.releaseFrom

end Store

namespace Stream

open Store

variable {trust : Trust} {s : Store}

/-- Closing a stream reads no stream any further. -/
theorem close_rests (u : Stream) {s : Store} (h : s.Sound trust) : s.Rests trust (u.close s) :=
  close_keeps (P := s.Rests trust) (fun _ d rests => rests.trans (rests.sound.releases d)) u (h.rests h.context)

end Stream

/-! ## Evaluation -/

section

variable {trust : Trust} {s r : Store} {k : Nat}

open Eval

/-- Evaluation makes paired streams only. -/
theorem allows_paired (trust : Trust) (s : Store) :
    Allows (.paired trust) (Same fun t => t.Sound trust ∧ s.Grows trust t) where
  context := by
    rintro t _ ⟨rfl, sound, -⟩
    exact ⟨rfl, sound.context⟩
  host := fun r => congrArg Store.host r.1
  counter := by
    rintro t _ ⟨rfl, sound, grows⟩
    exact ⟨rfl, rfl, sound.numbered _, grows.trans (Store.grows_of_replays rfl)⟩
  builtin := by
    rintro id kind (rfl | rfl | rfl | rfl) <;> trivial
  template := by
    rintro t _ f signature body frame ⟨rfl, sound, grows⟩ hf kind made
    have trusted : trust.body body := by simpa [Stock.paired, kind] using hf
    refine ⟨rfl, sound.streams, rfl, sound.newStream _, grows.trans (Store.grows_newStream ⟨sound.body trusted, ?_⟩)⟩
    rintro _ _ ⟨⟩
    exact made
  select := by
    rintro t _ f matched path ⟨rfl, sound, grows⟩ hf kind
    have closing : Event.Closing trust [] matched := by simpa [Stock.paired, kind] using hf
    refine ⟨rfl, sound.streams, rfl, sound.newStream _, grows.trans (Store.grows_newStream (Replay.closes_plain ?_))⟩
    refine ⟨Path.paired_select closing.1, Event.allProper_iff.2 fun e he => ?_⟩
    rcases Path.mem_select he with old | ⟨d, -, t, rfl⟩
    · exact Event.allProper_iff.1 closing.2 e old
    · trivial

theorem Expression.eval_paired {x : Expression} {v : Value} (h : s.Sound trust) (result : x.eval k s = .ok (v, r)) :
    (r.Sound trust ∧ s.Grows trust r) ∧ v.From (.paired trust) :=
  (x.eval_simulates (allows_paired trust s) (Nat.le_refl _)).keeps ⟨h, .refl s⟩ result

theorem Attributes.eval_paired {as as' : Attributes} (h : s.Sound trust) (result : as.eval k s = .ok (as', r)) :
    r.Sound trust ∧ s.Grows trust r :=
  ((as.eval_simulates (allows_paired trust s) (Nat.le_refl _)).keeps ⟨h, .refl s⟩ result).1

end

end Stencil
