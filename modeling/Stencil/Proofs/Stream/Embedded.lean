import Stencil.Proofs.Stream.Element
import Stencil.Proofs.Stream.Scope
import Stencil.Proofs.Expr.Embedded

/-!
# Expanding the elements of a call inside of a rendering

What is read of an element before it is repeated is the same stream here and there (`Raw`), and so is the element apart from
the values of its loop (`Element`). A step here is a step there: `Raw.step`, `Element.step`.
-/

namespace Stencil

/-- The message of a failure, wherever it has happened. -/
def Stop.bare? : Stop → Option Text
  | .fault f => some f.bare
  | .outOfFuel => none

theorem Stop.bare?_locate (why : Stop) (filename : Text) (last : Position) :
    (why.locate filename last).bare? = why.bare? := by
  cases why with
  | outOfFuel => rfl
  | fault f => cases f <;> rfl

theorem Stop.bare?_of_wording {e e' : EvalError} (same : e.wording = e'.wording) (p? : Option Position) :
    (Stop.fault (.badEvaluation e' p?)).bare? = (Stop.fault (.badEvaluation e p?)).bare? := by
  simp only [bare?, Fault.bare, EvalError.message, same]

/-- Two steps are alike: the same event comes out, or they fail with the same message. The one store still lies inside of the
other, and the streams are related by `R`, at the end by `D`. The frames in force at the end are those of `l₀`. -/
inductive Advance.Alike (w : Embedding) (l₀ : Nesting) (n : Nat) (R : Nat → Nesting → Stream → Stream → Prop)
    (Y : Nesting → Event → Prop) (D : Stream → Stream → Prop) : Advance → Advance → Prop
  | yield {l : Nesting} {e : Event} {u u' : Stream} {c s : Store} (holds : w.Holds l c s) (more : n ≤ c.replays.size)
      (event : Y l e) (streams : R c.replays.size l u u') : Alike w l₀ n R Y D (.yield e u c) (.yield e u' s)
  | skip {l : Nesting} {u u' : Stream} {c s : Store} (holds : w.Holds l c s) (more : n ≤ c.replays.size)
      (streams : R c.replays.size l u u') : Alike w l₀ n R Y D (.skip u c) (.skip u' s)
  | done {u u' : Stream} {c s : Store} (holds : w.Holds l₀ c s) (more : n ≤ c.replays.size) (streams : D u u') :
      Alike w l₀ n R Y D (.done u c) (.done u' s)
  | fail {why why' : Stop} {u u' : Stream} {c s : Store} (same : why'.bare? = why.bare?) :
      Alike w l₀ n R Y D (.fail why u c) (.fail why' u' s)

variable {w : Embedding} {l l₀ : Nesting} {n k : Nat} {c s : Store} {u u' : Stream} {bound inside : List Text}

namespace Attributes

theorem ClosedIn.nil : ClosedIn bound [] := by simp [ClosedIn]

theorem ClosedIn.set {as : Attributes} (h : as.ClosedIn bound) (name : QName) (t : Text) :
    (as.setText name t).ClosedIn bound := by
  have literal (name : QName) : ∀ x ∈ Attribute.expressions ⟨name, [.literal t]⟩, x.ClosedIn bound := by
    simp [Attribute.expressions, Fragment.expression?]
  unfold setText
  induction as with
  | nil => exact List.forall_mem_singleton.2 (literal name)
  | cons a as ih =>
    obtain ⟨first, others⟩ := List.forall_mem_cons.1 h
    unfold Attributes.set
    split
    · exact List.forall_mem_cons.2 ⟨literal a.name, others⟩
    · exact List.forall_mem_cons.2 ⟨first, ih others⟩

/-- Only texts are merged into attributes. -/
theorem ClosedIn.merge {as as' : Attributes} (h : as.ClosedIn bound) {v : Value} (r : as.merge v = .ok as') :
    as'.ClosedIn bound := by
  have pair {as as' : Attributes} {pair : Value} (h : as.ClosedIn bound) (r : as.mergePair pair = .ok as') :
      as'.ClosedIn bound := by
    unfold mergePair at r
    split at r
    · cases r
      split
      · exact fun a ha => h a (List.mem_of_mem_eraseP ha)
      · exact h.set _ _
    · cases r
  have pairs (vs : List Value) {as : Attributes} (h : as.ClosedIn bound) (r : vs.foldlM mergePair as = .ok as') :
      as'.ClosedIn bound := by
    induction vs generalizing as with
    | nil => cases r; exact h
    | cons v vs ih =>
      rw [List.foldlM_cons] at r
      cases first : as.mergePair v with
      | error e => rw [first] at r; cases r
      | ok mid => rw [first] at r; exact ih (pair h first) r
  unfold Attributes.merge at r
  cases listed : pairsOf v with
  | error e => rw [listed] at r; cases r
  | ok vs => rw [listed] at r; exact pairs vs h r

end Attributes

/-! ## Frames that come and go -/

namespace Embedding

theorem Idle.mono {l' : Nesting} {id : Nat} {r r' : Replay} (h : w.Idle l id r r') (le : w.pending l id ≤ w.pending l' id) :
    w.Idle l' id r r' := by
  cases h with
  | waiting made closed => exact .waiting (made.mono le) closed
  | finished => exact .finished

theorem Holds.depth (h : w.Holds l c s) : c.context.depth = l.length + 1 ∧ s.context.depth = l.length + w.outer.depth := by
  rw [h.here, h.there]
  simp [Context.depth, Nesting.frames]
  omega

/-- The contexts without the top frame. -/
theorem Holds.released {f : Layer} (h : w.Holds (f :: l) c s) :
    c.context.releaseFrom (l.length + 2) = ⟨l.frames, []⟩ ∧ s.context.releaseFrom (l.length + w.outer.depth + 1) =
      ⟨l.frames.map (Entries.rename w.number) ++ w.outer.upper, w.outer.base⟩ := by
  have here : c.context = (⟨l.frames, []⟩ : Context).push f.frame := h.here
  have there : s.context = (⟨l.frames.map (Entries.rename w.number) ++ w.outer.upper, w.outer.base⟩ : Context).push
      (Entries.rename w.number f.frame) := h.there
  have depth : l.length + 2 = (⟨l.frames, []⟩ : Context).depth + 1 := by simp [Context.depth, Nesting.frames]
  have depth' : l.length + w.outer.depth + 1 =
      (⟨l.frames.map (Entries.rename w.number) ++ w.outer.upper, w.outer.base⟩ : Context).depth + 1 := by
    simp [Context.depth, Nesting.frames]
    omega
  rw [here, there, depth, depth', Context.releaseFrom_push, Context.releaseFrom_push]
  exact ⟨rfl, rfl⟩

/-- An iteration begins. -/
theorem Holds.push (h : w.Holds l c s) {frame : Frame} (made : Entries.From (w.stock l c.replays.size) frame) :
    w.Holds (.loop frame :: l) (c.pushFrame frame) (s.pushFrame (Entries.rename w.number frame)) where
  here := by simp [Store.pushFrame, Context.push, h.here, Nesting.frames, Layer.frame]
  there := by simp [Store.pushFrame, Context.push, h.there, Nesting.frames, Layer.frame]
  begun := .loop made (h.begun.mono (Nat.le_refl _) fun _ _ => ⟨rfl, rfl⟩)
  idle id known idle := by
    refine (h.idle id known fun reads => idle (Nesting.reads_loop.2 reads)).mono ⟨fun _ h => h, fun n h => ⟨h.1, ?_⟩⟩
    exact List.forall_mem_cons.2 ⟨fun _ => trivial, h.2⟩
  host := h.host
  numbers := h.numbers
  captured := h.captured

/-- An iteration ends. -/
theorem Holds.pop {frame : Frame} (h : w.Holds (.loop frame :: l) c s) :
    w.Holds l (c.releaseFrom (l.length + 2)) (s.releaseFrom (l.length + w.outer.depth + 1)) where
  here := h.released.1
  there := h.released.2
  begun := by
    cases h.begun with
    | loop _ lower => exact lower.mono (Nat.le_refl _) fun _ _ => ⟨rfl, rfl⟩
  idle id known idle := (h.idle id known fun reads => idle (Nesting.reads_loop.1 reads)).mono
    ⟨fun _ h => h, fun n h => ⟨h.1, (List.forall_mem_cons.1 h.2).2⟩⟩
  host := h.host
  numbers := h.numbers
  captured := h.captured

/-- What is among the values is not being read. -/
theorem Begun.unread (h : w.Begun c s l) {id : Nat} (admits : l.Admits id) : ¬ l.Reads id := by
  induction h with
  | nil => exact Nesting.reads_nil
  | loop _ _ ih =>
    rw [Nesting.reads_loop]
    exact ih (List.forall_mem_cons.1 admits).2
  | call _ older _ _ _ _ _ ih =>
    obtain ⟨first, others⟩ := List.forall_mem_cons.1 admits
    rw [Nesting.reads_call]
    refine not_or.2 ⟨fun itself => ?_, ih others⟩
    rcases first with before | after <;> omega

/-- The streams here and there when one of them has been read on. -/
theorem Holds.replays (h : w.Holds l c s) {id : Nat} (known : id < c.replays.size) (r r' : Replay) (other : Nat) :
    (c.setReplay id r).replay other = (if other = id then r else c.replay other) ∧
      (s.setReplay (w.number id) r').replay (w.number other) = if other = id then r' else s.replay (w.number other) := by
  rw [Store.replay_setReplay r known, Store.replay_setReplay r' (h.number_lt known)]
  simp only [w.different.eq_iff]
  exact ⟨trivial, trivial⟩

theorem size_setReplay (s : Store) (id : Nat) (r : Replay) : (s.setReplay id r).replays.size = s.replays.size :=
  Array.size_setIfInBounds

/-- Reading a stream changes nothing for the calls below that have been begun. -/
theorem Begun.setReplay {l' : Nesting} (h : w.Holds l c s) (lower : w.Begun c s l') {id : Nat} (known : id < c.replays.size)
    (r r' : Replay) (unread : ¬ l'.Reads id) : w.Begun (c.setReplay id r) (s.setReplay (w.number id) r') l' := by
  refine lower.mono (Nat.le_of_eq (size_setReplay c id r).symm) fun other reads => ?_
  obtain ⟨here, there⟩ := h.replays known r r' other
  have differ : ¬ other = id := fun same => unread (same ▸ reads)
  rw [here, there, if_neg differ, if_neg differ]
  exact ⟨rfl, rfl⟩

theorem Holds.numbers_setReplay (h : w.Holds l c s) (id : Nat) (r r' : Replay) (n : Nat) :
    w.number ((c.setReplay id r).replays.size + n) = (s.setReplay (w.number id) r').replays.size + n := by
  rw [size_setReplay, size_setReplay, h.numbers]

/-- A stream that is not being read is another one from now on. -/
theorem Holds.setReplay (h : w.Holds l c s) {id : Nat} (known : id < c.replays.size) {r r' : Replay} (unread : ¬ l.Reads id)
    (idle : w.Idle l id r r') : w.Holds l (c.setReplay id r) (s.setReplay (w.number id) r') where
  here := h.here
  there := h.there
  begun := Begun.setReplay h h.begun known r r' unread
  idle other there unread' := by
    rw [size_setReplay] at there
    obtain ⟨same, same'⟩ := h.replays known r r' other
    rw [same, same']
    by_cases itself : other = id
    · rw [if_pos itself, if_pos itself, itself]
      exact idle
    · rw [if_neg itself, if_neg itself]
      exact h.idle other there unread'
  host := h.host
  numbers := h.numbers_setReplay id r r'
  captured := h.captured

/-- A call is begun: its frame is pushed. -/
theorem Holds.begin (h : w.Holds l c s) {id : Nat} (admits : l.Admits id) (known : id < c.replays.size) {frame : Frame}
    (rest : List Event) (made : Entries.From (w.pending l id) frame)
    (closed : Event.AllClosedIn w.spared (frame.map (·.1)) rest) :
    w.Holds (.call id c.replays.size frame rest :: l)
      { c.setReplay id (.running (c.context.depth + 1) rest) with context := c.context.push frame }
      { s.setReplay (w.number id) (.running (s.context.depth + 1) rest) with
        context := s.context.push (Entries.rename w.number frame) } where
  here := by simp [Context.push, h.here, Nesting.frames, Layer.frame]
  there := by simp [Context.push, h.there, Nesting.frames, Layer.frame]
  begun := by
    obtain ⟨here, there⟩ := h.replays known (.running (c.context.depth + 1) rest) (.running (s.context.depth + 1) rest) id
    rw [if_pos rfl] at here there
    have size := size_setReplay c id (.running (c.context.depth + 1) rest)
    have older : w.pending l id ≤ w.stock (.call id c.replays.size frame rest :: l)
        (c.setReplay id (.running (c.context.depth + 1) rest)).replays.size :=
      ⟨fun _ h => h, fun n hn => ⟨List.forall_mem_cons.2 ⟨.inl hn.1, fun f hf => hn.2 f hf (admits f hf)⟩,
        Nat.lt_of_lt_of_eq (Nat.lt_trans hn.1 known) size.symm⟩⟩
    have lower := Begun.setReplay h h.begun known (.running (c.context.depth + 1) rest) (.running (s.context.depth + 1) rest)
      (h.begun.unread admits)
    refine .call (made.mono older) known (Nat.le_of_eq size.symm) closed (here.trans ?_) (there.trans ?_)
      (lower.mono (Nat.le_refl _) fun _ _ => ⟨rfl, rfl⟩)
    · rw [h.depth.1]
    · rw [h.depth.2]
  idle other there idle := by
    have there : other < c.replays.size := Nat.lt_of_lt_of_eq there (size_setReplay c id _)
    have differ : ¬ other = id := fun same => idle (Nesting.reads_call.2 (.inl same.symm))
    obtain ⟨same, same'⟩ := h.replays known (.running (c.context.depth + 1) rest) (.running (s.context.depth + 1) rest) other
    rw [if_neg differ] at same same'
    change w.Idle _ other ((c.setReplay id _).replay other) ((s.setReplay (w.number id) _).replay (w.number other))
    rw [same, same']
    refine (h.idle other there fun reads => idle (Nesting.reads_call.2 (.inr reads))).mono ⟨fun _ h => h, fun n hn =>
      ⟨hn.1, List.forall_mem_cons.2 ⟨?_, hn.2⟩⟩⟩
    rintro (before | after)
    · exact .inl (Nat.lt_trans hn.1 before)
    · omega
  host := h.host
  numbers := h.numbers_setReplay id _ _
  captured := h.captured

/-- Where a call is read does not matter for what its frame may hold. -/
theorem stock_call {id made : Nat} {frame : Frame} {rest : List Event} (rest' : List Event) :
    w.stock (.call id made frame rest :: l) n ≤ w.stock (.call id made frame rest' :: l) n :=
  ⟨fun _ h => h, fun _ h => ⟨List.forall_mem_cons.2 (List.forall_mem_cons.1 h.1), h.2⟩⟩

theorem pending_call {id id' made : Nat} {frame : Frame} {rest : List Event} (rest' : List Event) :
    w.pending (.call id made frame rest :: l) id' ≤ w.pending (.call id made frame rest' :: l) id' :=
  ⟨fun _ h => h, fun _ h => ⟨h.1, List.forall_mem_cons.2 (List.forall_mem_cons.1 h.2)⟩⟩

/-- A call is not read below itself. -/
theorem Begun.once {id made : Nat} {frame : Frame} {rest : List Event} (h : w.Begun c s (.call id made frame rest :: l)) :
    ¬ l.Reads id := by
  intro reads
  cases h with
  | call holds older known closed here there lower =>
    obtain ⟨⟨depth, es, low, running⟩, -⟩ := lower.running reads
    rw [here] at running
    cases running
    omega

/-- The next event of a call is read. -/
theorem Holds.advance {id made : Nat} {frame : Frame} {e : Event} {rest : List Event}
    (h : w.Holds (.call id made frame (e :: rest) :: l) c s) :
    w.Holds (.call id made frame rest :: l) (c.setReplay id (.running (l.length + 2) rest))
      (s.setReplay (w.number id) (.running (l.length + w.outer.depth + 1) rest)) := by
  have once := h.begun.once
  cases h.begun with
  | call holds older known closed here there lower =>
    have reads : id < c.replays.size := Nat.lt_of_lt_of_le older known
    have size := size_setReplay c id (.running (l.length + 2) rest)
    have at_ := h.replays reads (.running (l.length + 2) rest) (.running (l.length + w.outer.depth + 1) rest)
    refine ⟨h.here, h.there, h.host, ?_, ?_, h.numbers_setReplay id _ _, h.captured⟩
    · obtain ⟨now, now'⟩ := at_ id
      rw [if_pos rfl] at now now'
      have holds' := holds.mono (stock_call rest)
      rw [← size] at holds' known
      exact .call holds' older known closed.2 now now' (Begun.setReplay h lower reads _ _ once)
    · intro other there unread
      have differ : ¬ other = id := fun same => unread (Nesting.reads_call.2 (.inl same.symm))
      obtain ⟨same, same'⟩ := at_ other
      rw [if_neg differ] at same same'
      rw [same, same']
      exact (h.idle other (by rwa [size] at there) fun reads => unread (Nesting.reads_call.2 (Nesting.reads_call.1 reads))).mono
        (pending_call rest)

/-- A call comes to its end: its frame is removed. -/
theorem Holds.finish {id made : Nat} {frame : Frame} (h : w.Holds (.call id made frame [] :: l) c s) :
    w.Holds l { c.setReplay id .finished with context := c.context.releaseFrom (l.length + 2) }
      { s.setReplay (w.number id) .finished with context := s.context.releaseFrom (l.length + w.outer.depth + 1) } := by
  have once := h.begun.once
  cases h.begun with
  | call holds older known closed here there lower =>
    have reads : id < c.replays.size := Nat.lt_of_lt_of_le older known
    have lower := Begun.setReplay h lower reads .finished .finished once
    refine ⟨h.released.1, h.released.2, h.host, lower.mono (Nat.le_refl _) fun _ _ => ⟨rfl, rfl⟩, ?_,
      h.numbers_setReplay id _ _, h.captured⟩
    intro other there unread
    obtain ⟨same, same'⟩ := h.replays reads .finished .finished other
    change w.Idle _ other ((c.setReplay id _).replay other) ((s.setReplay (w.number id) _).replay (w.number other))
    rw [same, same']
    by_cases itself : other = id
    · rw [if_pos itself, if_pos itself]
      exact .finished
    · rw [if_neg itself, if_neg itself]
      refine (h.idle other (Nat.lt_of_lt_of_eq there (size_setReplay c id _)) ?_).mono
        ⟨fun _ h => h, fun n hn => ⟨hn.1, (List.forall_mem_cons.1 hn.2).2⟩⟩
      rw [Nesting.reads_call]
      exact not_or.2 ⟨fun same => itself same.symm, unread⟩

end Embedding

namespace Stream

/-! ## Elements -/

/-- What is read of an element, before it is repeated. Its expressions look up names in `bound`, those of its events
in `inside`. -/
inductive Raw (spared : Event → Prop) (bound inside : List Text) : Stream → Prop
  | events {es : List Event} (closed : Event.AllClosedIn spared inside es) : Raw spared bound inside (.ofEvents es)
  | attributes {x : Expression} {u : Stream} (closed : x.ClosedIn bound) (source : Raw spared bound inside u) :
      Raw spared bound inside (.attributes x u)
  | content {x : Expression} {phase : ContentPhase} {u : Stream} (closed : x.ClosedIn inside)
      (held : ∀ e, phase = .last (some e) → e.ClosedIn spared inside) (source : Raw spared bound inside u) :
      Raw spared bound inside (.content x phase u)
  | replaced {x : Expression} {u : Stream} (closed : x.ClosedIn inside) (source : Raw spared bound inside u) :
      Raw spared bound inside (.replaced x u)
  | strip {test? : Option Expression} {phase : StripPhase} {u : Stream} (closed : ∀ x ∈ test?, x.ClosedIn bound)
      (held : ∀ e, phase = .holding e → e.ClosedIn spared inside) (source : Raw spared bound inside u) :
      Raw spared bound inside (.strip test? phase u)
  | ended {u : Stream} (inert : u.Inert) : Raw spared bound inside (.ended u)

theorem Raw.inert {spared : Event → Prop} (h : Raw spared bound inside u) : u.Inert := by
  induction h with
  | events => exact fun _ => rfl
  | attributes _ _ ih | content _ _ _ ih | replaced _ _ ih | strip _ _ _ ih => exact ih
  | ended inert => exact inert

/-- Here and there it is the same stream. -/
def RawTwins (w : Embedding) (l : Nesting) (inside : List Text) (_ : Nat) (l' : Nesting) (u u' : Stream) : Prop :=
  l' = l ∧ u' = u ∧ Raw w.spared l.bound inside u

/-- The steps of an element, here and there. -/
abbrev RawAlike (w : Embedding) (l : Nesting) (inside : List Text) (n : Nat) : Advance → Advance → Prop :=
  Advance.Alike w l n (RawTwins w l inside) (fun l' e => l' = l ∧ e.ClosedIn w.spared inside)
    fun u u' => u' = u ∧ Raw w.spared l.bound inside u

theorem Raw.stepContent {x : Expression} {phase : ContentPhase} {a b : Advance} (closed : x.ClosedIn inside)
    (held : ∀ e, phase = .last (some e) → e.ClosedIn w.spared inside) (h : RawAlike w l inside n a b) :
    RawAlike w l inside n (stepContent x phase a) (stepContent x phase b) := by
  cases h with
  | @yield l' e u _ c' s' store more event streams =>
    obtain ⟨rfl, event⟩ := event
    obtain ⟨-, rfl, source⟩ := streams
    cases phase with
    | start =>
      simp only [Stream.stepContent]
      split
      · exact .yield store more ⟨rfl, event⟩ ⟨rfl, rfl, .content closed (by simp) source⟩
      · exact .skip store more ⟨rfl, rfl, .content closed (by simp) source⟩
    | expression p => exact .skip store more ⟨rfl, rfl, .content closed (by simp) source⟩
    | last => exact .skip store more ⟨rfl, rfl, .content closed (by rintro _ ⟨⟩; exact event) source⟩
  | skip store more streams =>
    obtain ⟨rfl, rfl, source⟩ := streams
    cases phase <;> exact .skip store more ⟨rfl, rfl, .content closed held source⟩
  | done store more streams =>
    obtain ⟨rfl, source⟩ := streams
    have ended : Raw w.spared l.bound inside (.ended _) := .ended source.inert
    cases phase with
    | last latest? =>
      cases latest? with
      | some e => exact .yield store more ⟨rfl, held e rfl⟩ ⟨rfl, rfl, ended⟩
      | none => exact .done store more ⟨rfl, ended⟩
    | _ => exact .done store more ⟨rfl, ended⟩
  | fail same => cases phase <;> exact .fail same

theorem Raw.stepStrip {test? : Option Expression} {phase : StripPhase} {a b : Advance}
    (closed : ∀ x ∈ test?, x.ClosedIn l.bound) (held : ∀ e, phase = .holding e → e.ClosedIn w.spared inside)
    (h : RawAlike w l inside n a b) : RawAlike w l inside n (stepStrip test? phase a) (stepStrip test? phase b) := by
  cases h with
  | @yield l' e _ v c' s' store more event streams =>
    obtain ⟨rfl, event⟩ := event
    obtain ⟨-, rfl, source⟩ := streams
    have holding : Raw w.spared l'.bound inside (.strip test? (.holding e) v) :=
      .strip closed (by rintro _ ⟨⟩; exact event) source
    cases phase with
    | holding e => exact .yield store more ⟨rfl, held e rfl⟩ ⟨rfl, rfl, holding⟩
    | second => exact .skip store more ⟨rfl, rfl, holding⟩
    | _ => exact .skip store more ⟨rfl, rfl, .strip closed (by simp) source⟩
  | skip store more streams =>
    obtain ⟨rfl, rfl, source⟩ := streams
    cases phase <;> exact .skip store more ⟨rfl, rfl, .strip closed held source⟩
  | done store more streams =>
    obtain ⟨rfl, source⟩ := streams
    cases phase <;> exact .done store more ⟨rfl, .ended source.inert⟩
  | fail same => cases phase <;> exact .fail same

theorem Raw.mergeInto {x : Expression} {e : Event} (closed : x.ClosedIn l.bound) (event : e.ClosedIn w.spared inside)
    (source : Raw w.spared l.bound inside u) (holds : w.Holds l c s) (more : n ≤ c.replays.size) :
    RawAlike w l inside n (mergeInto k x e u c) (mergeInto k x e u s) := by
  cases e with
  | startTag p name as =>
    have value := x.eval_mirrored (w := w) k n closed c s holds more
    simp only [Stream.mergeInto]
    generalize x.eval k c = y, x.eval k s = z at value
    cases value with
    | error why => exact .fail rfl
    | @ok v _ c s store value =>
      obtain ⟨more, rfl, -⟩ := value
      simp only [Value.isTrue_rename]
      split
      · have merged := as.merge_rename (ρ := w.number) v
        have kept {as' : Attributes} (given : as.merge v = .ok as') := event.2.merge given
        generalize as.merge v = r, as.merge (v.rename w.number) = r' at merged kept
        cases merged with
        | error same => exact .fail (Stop.bare?_of_wording same none)
        | ok same =>
          subst same
          exact .yield store more ⟨rfl, w.spares event.1, kept rfl⟩ ⟨rfl, rfl, source⟩
      · exact .yield store more ⟨rfl, event⟩ ⟨rfl, rfl, source⟩
  | _ => exact .yield holds more ⟨rfl, event⟩ ⟨rfl, rfl, source⟩

theorem Raw.step (h : Raw w.spared l.bound inside u) (holds : w.Holds l c s) :
    RawAlike w l inside c.replays.size (step k u c) (step k u s) := by
  induction h with
  | @events es closed =>
    cases es with
    | nil => exact .done holds (Nat.le_refl _) ⟨rfl, .events trivial⟩
    | cons e es => exact .yield holds (Nat.le_refl _) ⟨rfl, closed.1⟩ ⟨rfl, rfl, .events closed.2⟩
  | @attributes x u closed source ih =>
    simp only [Stream.step]
    generalize Stream.step k u c = a, Stream.step k u s = b at ih
    cases ih with
    | yield store more event streams =>
      obtain ⟨rfl, event⟩ := event
      obtain ⟨-, rfl, source⟩ := streams
      exact source.mergeInto closed event store more
    | skip store more streams =>
      obtain ⟨rfl, rfl, source⟩ := streams
      exact .skip store more ⟨rfl, rfl, .attributes closed source⟩
    | done store more streams => exact .done store more streams
    | fail same => exact .fail same
  | @content x phase u closed held source ih =>
    cases phase with
    | expression p => exact .yield holds (Nat.le_refl _) ⟨rfl, closed⟩ ⟨rfl, rfl, .content closed (by simp) source⟩
    | start => exact stepContent closed held ih
    | last => exact stepContent closed held ih
  | @replaced x u closed source ih =>
    simp only [Stream.step]
    generalize Stream.step k u c = a, Stream.step k u s = b at ih
    cases ih with
    | yield store more event streams =>
      obtain ⟨rfl, event⟩ := event
      obtain ⟨-, rfl, source⟩ := streams
      exact .yield store more ⟨rfl, closed⟩ ⟨rfl, rfl, .ended source.inert⟩
    | skip store more streams =>
      obtain ⟨rfl, rfl, source⟩ := streams
      exact .skip store more ⟨rfl, rfl, .replaced closed source⟩
    | done store more streams =>
      obtain ⟨rfl, source⟩ := streams
      exact .done store more ⟨rfl, .ended source.inert⟩
    | fail same => exact .fail same
  | @strip test? phase u closed held source ih =>
    cases phase with
    | untested =>
      cases test? with
      | none => exact .skip holds (Nat.le_refl _) ⟨rfl, rfl, .strip closed (by simp) source⟩
      | some x =>
        have value := x.eval_mirrored (w := w) k c.replays.size (closed x rfl) c s holds (Nat.le_refl _)
        simp only [Stream.step, testStrip]
        generalize x.eval k c = y, x.eval k s = z at value
        cases value with
        | error why => exact .fail rfl
        | ok store value =>
          obtain ⟨more, rfl, -⟩ := value
          simp only [Value.isTrue_rename]
          refine .skip store more ⟨rfl, rfl, ?_⟩
          split
          · exact .strip closed (by simp) source
          · exact source
    | first => exact stepStrip closed held ih
    | second => exact stepStrip closed held ih
    | holding => exact stepStrip closed held ih
  | ended inert => exact .done holds (Nat.le_refl _) ⟨rfl, .ended inert⟩

/-- An element that is being expanded since the frames of `l₀` were in force. In an iteration there is one more. -/
inductive Element (w : Embedding) (n : Nat) (l₀ : Nesting) : Nesting → Stream → Stream → Prop
  | raw {u : Stream} (source : Raw w.spared l₀.bound l₀.bound u) : Element w n l₀ l₀ u u
  | directed {ds : List Directive} {read : List Event} {u : Stream} (order : ds.Pairwise (·.rank > ·.rank))
      (directives : ∀ d ∈ ds, d.ClosedIn l₀.bound (Directive.targets ds ++ l₀.bound))
      (held : ∀ e ∈ read, e.ClosedIn w.spared (Directive.targets ds ++ l₀.bound))
      (source : Raw w.spared l₀.bound (Directive.targets ds ++ l₀.bound) u) :
      Element w n l₀ l₀ (.directed ds read u) (.directed ds read u)
  | looped {targets : List Text} {items : Expression} {u : Stream} (closed : items.ClosedIn l₀.bound)
      (source : Raw w.spared l₀.bound (targets ++ l₀.bound) u) :
      Element w n l₀ l₀ (.directed [] [] (.loop targets items u)) (.directed [] [] (.loop targets items u))
  | loop {targets : List Text} {items : Expression} {u : Stream} (closed : items.ClosedIn l₀.bound)
      (source : Raw w.spared l₀.bound (targets ++ l₀.bound) u) :
      Element w n l₀ l₀ (.loop targets items u) (.loop targets items u)
  | gathering {targets : List Text} {vs : List Value} {body : List Event} {u : Stream}
      (made : ∀ v ∈ vs, v.From (w.stock l₀ n)) (closed : ∀ e ∈ body, e.ClosedIn w.spared (targets ++ l₀.bound))
      (source : Raw w.spared l₀.bound (targets ++ l₀.bound) u) :
      Element w n l₀ l₀ (.gathering targets vs body u) (.gathering targets (vs.map (Value.rename w.number)) body u)
  | looping {targets : List Text} {vs : List Value} {body : List Event} {u : Stream}
      (made : ∀ v ∈ vs, v.From (w.stock l₀ n)) (closed : ∀ e ∈ body, e.ClosedIn w.spared (targets ++ l₀.bound))
      (inert : u.Inert) : Element w n l₀ l₀ (.looping targets vs (some body) none u)
        (.looping targets (vs.map (Value.rename w.number)) (some body) none u)
  | iterating {targets : List Text} {vs : List Value} {body rest : List Event} {frame : Frame} {u : Stream}
      (made : ∀ v ∈ vs, v.From (w.stock l₀ n)) (closed : ∀ e ∈ body, e.ClosedIn w.spared (targets ++ l₀.bound))
      (bound : targets ⊆ frame.map (·.1)) (left : ∀ e ∈ rest, e.ClosedIn w.spared (targets ++ l₀.bound)) (inert : u.Inert) :
      Element w n l₀ (.loop frame :: l₀) (.looping targets vs (some body) (some (l₀.length + 2, rest)) u)
        (.looping targets (vs.map (Value.rename w.number)) (some body) (some (l₀.length + w.outer.depth + 1, rest)) u)

/-- The steps of an element that is being expanded, here and there. -/
abbrev ElementAlike (w : Embedding) (l₀ : Nesting) (n : Nat) : Advance → Advance → Prop :=
  Advance.Alike w l₀ n (fun n => Element w n l₀) (fun l e => e.ClosedIn w.spared l.bound) fun u u' => u.Inert ∧ u'.Inert

/-- The targets of a loop are bound in its frame. -/
theorem bound_of_loopFrame {targets : List Text} {item : Value} {frame : Frame} (h : loopFrame targets item = .ok frame) :
    targets ⊆ frame.map (·.1) := by
  have all (ts : List Text) (vs : List Value) (enough : ts.length ≤ vs.length) (frame : Frame) :
      ts ++ frame.map (·.1) ⊆ ((ts.zip vs).foldl (fun f p => Frame.bind f p.1 p.2) frame).map (·.1) := by
    induction ts generalizing vs frame with
    | nil => exact List.Subset.refl _
    | cons t ts ih =>
      cases vs with
      | nil => cases enough
      | cons v vs =>
        have rest := ih vs (by simpa using enough) (frame.bind t v)
        obtain ⟨targets, bound⟩ := List.append_subset.1 rest
        exact List.cons_subset.2 ⟨bound (Frame.mem_bind frame t v), List.append_subset.2 ⟨targets,
          List.Subset.trans (Frame.subset_bind frame t v) bound⟩⟩
  unfold loopFrame at h
  split at h
  · cases h
    simp [Frame.bind]
  · split at h
    · cases h
    · rename_i enough
      cases h
      exact (List.append_subset.1 (all _ _ (Nat.not_lt.1 enough) [])).1
  · cases h

theorem targets_cons {d : Directive} {ds : List Directive} (other : ∀ targets items, d ≠ .loop targets items) :
    Directive.targets (d :: ds) = Directive.targets ds := by
  cases d with
  | loop targets items => exact absurd rfl (other targets items)
  | _ => rfl

/-- A loop is the last directive to be applied. -/
theorem nil_of_loop {targets : List Text} {items : Expression} {ds : List Directive}
    (order : (Directive.loop targets items :: ds).Pairwise (·.rank > ·.rank)) (closed : ∀ d ∈ ds, d.ClosedIn bound inside) :
    ds = [] := by
  cases ds with
  | nil => rfl
  | cons d ds =>
    have lower : d.rank < 2 := (List.pairwise_cons.1 order).1 d List.mem_cons_self
    have here := closed d List.mem_cons_self
    cases d with
    | define | capture | expand => exact here.elim
    | extension kind x =>
      simp only [Directive.rank, Directive.name?, DirectiveName.rank, DirectiveName.firstFreeRank] at lower
      omega
    | _ => simp [Directive.rank, Directive.name?, DirectiveName.rank] at lower

/-- An element whose first directive is to be applied. -/
theorem Element.applied {d : Directive} {ds : List Directive} (order : (d :: ds).Pairwise (·.rank > ·.rank))
    (directives : ∀ e ∈ d :: ds, e.ClosedIn l.bound (Directive.targets (d :: ds) ++ l.bound))
    (source : Raw w.spared l.bound (Directive.targets (d :: ds) ++ l.bound) u) (holds : w.Holds l c s)
    (more : n ≤ c.replays.size) : ElementAlike w l n (applyDirective k d ds u c) (applyDirective k d ds u s) := by
  obtain ⟨closed, others⟩ := List.forall_mem_cons.1 directives
  have rest := (List.pairwise_cons.1 order).2
  -- the directive has made a stream of the element
  have proceeds {c s : Store} (holds : w.Holds l c s) (more : n ≤ c.replays.size) {v : Stream}
      (other : ∀ targets items, d ≠ .loop targets items)
      (source : Raw w.spared l.bound (Directive.targets (d :: ds) ++ l.bound) v) :
      ElementAlike w l n (proceed ds v c) (proceed ds v s) := by
    rw [targets_cons other] at source others
    exact .skip holds more (.directed rest others (by simp) source)
  have tests (wanted : Bool) {x : Expression} (closed : x.ClosedIn l.bound)
      (other : ∀ targets items, d ≠ .loop targets items) :
      ElementAlike w l n (test k wanted x ds u c) (test k wanted x ds u s) := by
    have value := x.eval_mirrored (w := w) k n closed c s holds more
    unfold test
    generalize x.eval k c = y, x.eval k s = z at value
    cases value with
    | error why => exact .fail rfl
    | ok store value =>
      obtain ⟨more, rfl, -⟩ := value
      simp only [Value.isTrue_rename]
      split
      · exact proceeds store more other source
      · rw [drop, drop, source.inert, source.inert]
        exact proceeds store more other (.events trivial)
  cases d with
  | loop targets items =>
    obtain rfl := nil_of_loop order others
    have source : Raw w.spared l.bound (targets ++ l.bound) u := by simpa [Directive.targets] using source
    exact .skip holds more (.looped closed source)
  | condition x => exact tests true closed (by simp)
  | replace x => exact proceeds holds more (by simp) (.replaced closed source)
  | content x => exact proceeds holds more (by simp) (.content closed (by simp) source)
  | attributes x => exact proceeds holds more (by simp) (.attributes closed source)
  | strip x? => exact proceeds holds more (by simp) (.strip closed (by simp) source)
  | extension kind x? =>
    rcases kind with ⟨name, number, _ | _⟩
    · cases x? with
      | some x => exact tests false (closed x rfl) (by simp)
      | none => exact proceeds holds more (by simp) source
    · simp only [applyDirective, complete, source.inert c, source.inert s]
      exact proceeds holds more (by simp) (.events trivial)
  | define | capture | expand => exact closed.elim

/-- An element some of whose directives are still to be applied. -/
theorem Element.stepDirected {ds : List Directive} {read : List Event} (order : ds.Pairwise (·.rank > ·.rank))
    (directives : ∀ d ∈ ds, d.ClosedIn l.bound (Directive.targets ds ++ l.bound))
    (held : ∀ e ∈ read, e.ClosedIn w.spared (Directive.targets ds ++ l.bound))
    (source : Raw w.spared l.bound (Directive.targets ds ++ l.bound) u) (holds : w.Holds l c s) :
    ElementAlike w l c.replays.size (Stream.step k (.directed ds read u) c) (Stream.step k (.directed ds read u) s) := by
  cases ds with
  | nil => exact .skip holds (Nat.le_refl _) (.raw source)
  | cons d ds =>
    by_cases twice : ∃ name number x?, d = .extension ⟨name, number, .twice⟩ x?
    · -- the element is read, and repeated at its end
      obtain ⟨name, number, x?, rfl⟩ := twice
      have needs (s : Store) : needsEvents (.extension ⟨name, number, .twice⟩ x?) s = true := rfl
      simp only [Stream.step, needs, if_true]
      have next := source.step (k := k) holds
      generalize Stream.step k u c = a, Stream.step k u s = b at next
      cases next with
      | yield store more event streams =>
        obtain ⟨rfl, event⟩ := event
        obtain ⟨-, rfl, source⟩ := streams
        exact .skip store more (.directed order directives (List.forall_mem_cons.2 ⟨event, held⟩) source)
      | skip store more streams =>
        obtain ⟨rfl, rfl, source⟩ := streams
        exact .skip store more (.directed order directives held source)
      | done store more streams =>
        obtain ⟨rfl, source⟩ := streams
        obtain ⟨-, others⟩ := List.forall_mem_cons.1 directives
        have events : Event.AllClosedIn w.spared (Directive.targets ds ++ l.bound) (read.reverse ++ read.reverse) :=
          Event.allClosedIn_iff.2 fun e he => held e (by simpa using he)
        simp only [complete, source.inert _]
        exact .skip store more (.directed (List.pairwise_cons.1 order).2 others (by simp) (.events events))
      | fail same => exact .fail same
    · have reads : ∀ s, needsEvents d s = false := by
        intro s
        have closed := directives d List.mem_cons_self
        cases d with
        | define | capture => exact closed.elim
        | extension kind x? =>
          rcases kind with ⟨name, number, _ | _⟩
          · rfl
          · exact absurd ⟨name, number, x?, rfl⟩ twice
        | _ => rfl
      simp only [Stream.step, reads, Bool.false_eq_true, if_false]
      exact applied order directives source holds (Nat.le_refl _)

/-- The items of a loop are computed. -/
theorem Element.startLoop {targets : List Text} {items : Expression} (closed : items.ClosedIn l.bound)
    (source : Raw w.spared l.bound (targets ++ l.bound) u) (holds : w.Holds l c s) :
    ElementAlike w l c.replays.size (startLoop k targets items u c) (startLoop k targets items u s) := by
  have value := items.eval_mirrored (w := w) k c.replays.size closed c s holds (Nat.le_refl _)
  unfold Stream.startLoop
  generalize items.eval k c = y, items.eval k s = z at value
  cases value with
  | error why => exact .fail rfl
  | @ok v _ c s store value =>
    obtain ⟨more, rfl, made⟩ := value
    simp only [Value.isNull_rename, Value.items_rename]
    split
    · exact .done store more ⟨source.inert, source.inert⟩
    · cases listed : v.items with
      | error e => exact .fail rfl
      | ok vs => exact .skip store more (.gathering (made.items listed) (by simp) source)

/-- An iteration of a loop is begun. -/
theorem Element.startIteration {targets : List Text} {v : Value} {vs : List Value} {body : List Event}
    (made : ∀ x ∈ v :: vs, x.From (w.stock l c.replays.size)) (closed : ∀ e ∈ body, e.ClosedIn w.spared (targets ++ l.bound))
    (inert : u.Inert) (holds : w.Holds l c s) : ElementAlike w l c.replays.size
      (startIteration targets v vs (some body) u c)
      (startIteration targets (v.rename w.number) (vs.map (Value.rename w.number)) (some body) u s) := by
  obtain ⟨first, others⟩ := List.forall_mem_cons.1 made
  unfold Stream.startIteration
  have frames := loopFrame_rename (ρ := w.number) targets v
  have bound {frame : Frame} (h : loopFrame targets v = .ok frame) :=
    And.intro (bound_of_loopFrame h) (loopFrame_from first h)
  generalize loopFrame targets v = r, loopFrame targets (v.rename w.number) = r' at frames bound
  cases frames with
  | error same => exact .fail (Stop.bare?_of_wording same none)
  | ok same =>
    subst same
    obtain ⟨bound, from_⟩ := bound rfl
    have store := holds.push from_
    have depth : (c.pushFrame _).context.depth = l.length + 2 := store.depth.1
    have depth' : (s.pushFrame _).context.depth = l.length + w.outer.depth + 1 :=
      store.depth.2.trans (by rw [List.length_cons]; omega)
    simp only [depth, depth']
    exact .skip store (Nat.le_refl _) (.iterating others closed bound closed inert)

theorem Element.step (h : Element w n l₀ l u u') (holds : w.Holds l c s) (same : n = c.replays.size) :
    ElementAlike w l₀ n (step k u c) (step k u' s) := by
  subst same
  cases h with
  | raw source =>
    have next := source.step (k := k) holds
    generalize Stream.step k u c = a, Stream.step k u s = b at next
    cases next with
    | yield store more event streams =>
      obtain ⟨rfl, event⟩ := event
      obtain ⟨-, rfl, source⟩ := streams
      exact .yield store more event (.raw source)
    | skip store more streams =>
      obtain ⟨rfl, rfl, source⟩ := streams
      exact .skip store more (.raw source)
    | done store more streams =>
      obtain ⟨rfl, source⟩ := streams
      exact .done store more ⟨source.inert, source.inert⟩
    | fail same => exact .fail same
  | directed order directives held source => exact stepDirected order directives held source holds
  | looped closed source => exact .skip holds (Nat.le_refl _) (.loop closed source)
  | loop closed source => exact Element.startLoop closed source holds
  | @gathering targets vs body u made closed source =>
    have next := source.step (k := k) holds
    simp only [Stream.step]
    generalize Stream.step k u c = a, Stream.step k u s = b at next
    cases next with
    | yield store more event streams =>
      obtain ⟨rfl, event⟩ := event
      obtain ⟨-, rfl, source⟩ := streams
      exact .skip store more (.gathering (fun v hv => (made v hv).mono (Embedding.stock_le more))
        (List.forall_mem_cons.2 ⟨event, closed⟩) source)
    | skip store more streams =>
      obtain ⟨rfl, rfl, source⟩ := streams
      exact .skip store more (.gathering (fun v hv => (made v hv).mono (Embedding.stock_le more)) closed source)
    | done store more streams =>
      obtain ⟨rfl, source⟩ := streams
      exact .skip store more (.looping (fun v hv => (made v hv).mono (Embedding.stock_le more))
        (fun e he => closed e (List.mem_reverse.1 he)) source.inert)
    | fail same => exact .fail same
  | @looping targets vs body u made closed inert =>
    cases vs with
    | nil => exact .done holds (Nat.le_refl _) ⟨inert, inert⟩
    | cons v vs => exact startIteration made closed inert holds
  | @iterating targets vs body rest frame u made closed bound left inert =>
    cases rest with
    | nil => exact .skip holds.pop (Nat.le_refl _) (.looping made closed inert)
    | cons e rest =>
      obtain ⟨first, others⟩ := List.forall_mem_cons.1 left
      have inside : targets ++ l₀.bound ⊆ Nesting.bound (.loop frame :: l₀) :=
        List.append_subset.2 ⟨List.Subset.trans bound (List.subset_append_left _ _), List.subset_append_right _ _⟩
      exact .yield holds (Nat.le_refl _) (first.mono inside e) (.iterating made closed bound others inert)

end Stream

end Stencil
