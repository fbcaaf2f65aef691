import Stencil.Proofs.Value.Renamed
import Stencil.Proofs.Template.Closed

/-!
# A call inside of a rendering

A call is expanded in a store of its own, in which there is nothing else, and in the middle of a rendering. The one store
lies inside of the other (`Embedding.Holds`): the streams have other numbers there, and under the frames of the call are
those of its surroundings. What is closed under the names that the call's frames bind comes to the same in both
(`Expression.eval_mirrored`).

Calls are pending until they are read, and a call that is read may read others that are pending. These are older than the
call, or they have been made since it was begun: so a call never reads itself (`Layer.admits`).
-/

namespace Stencil

/-! ## Frames in force -/

/-- A frame that is in force while a call is expanded. -/
inductive Layer where
  /-- an iteration of a loop -/
  | loop (frame : Frame)
  /-- a call that has been begun: its stream, the number of streams there were then, and the rest of the body -/
  | call (id made : Nat) (frame : Frame) (rest : List Event)

namespace Layer

def frame : Layer → Frame
  | loop frame | call _ _ frame _ => frame

/-- The stream that is being read. -/
def id? : Layer → Option Nat
  | loop _ => none
  | call id .. => some id

/-- The streams that may be among the values under a frame. -/
def admits : Layer → Nat → Prop
  | loop _, _ => True
  | call id made _ _, n => n < id ∨ made ≤ n

end Layer

/-- The frames of a call that are in force, the top one first. -/
abbrev Nesting := List Layer

namespace Nesting

def frames (l : Nesting) : List Frame := l.map Layer.frame

def Admits (l : Nesting) (n : Nat) : Prop := ∀ f ∈ l, f.admits n

/-- The streams that are being read. -/
def Reads (l : Nesting) (id : Nat) : Prop := ∃ f ∈ l, f.id? = some id

@[simp] theorem reads_nil {id : Nat} : ¬ Reads [] id := by simp [Reads]

@[simp] theorem reads_loop {frame : Frame} {l : Nesting} {id : Nat} : Reads (.loop frame :: l) id ↔ l.Reads id := by
  simp [Reads, Layer.id?]

@[simp] theorem reads_call {id made : Nat} {frame : Frame} {rest : List Event} {l : Nesting} {id' : Nat} :
    Reads (.call id made frame rest :: l) id' ↔ id = id' ∨ l.Reads id' := by
  simp [Reads, Layer.id?]

/-- The names bound by the innermost call and the loops inside of it. -/
def bound : Nesting → List Text
  | [] => []
  | .loop frame :: l => frame.map (·.1) ++ bound l
  | .call _ _ frame _ :: _ => frame.map (·.1)

end Nesting

/-! ## Stores inside of stores -/

/-- The function gives the same everywhere: it does not look at the context, or it is bound by a `def` directive whose body
looks up its parameters only and whose defaults look up nothing. -/
def Function.Closed (spared : Event → Prop) (captured : BodyId → Option (List Event)) (f : Function) : Prop :=
  match f.kind with
  | .length | .text | .range | .host .. => True
  | .defined | .select _ => False
  | .template signature body => (∀ p ∈ signature.parameters, ∀ x ∈ p.default?, x.names = []) ∧
    ∃ es, captured body = some es ∧ Event.AllClosedIn spared (signature.parameters.map (·.name)) es

/-- How the store of a call lies inside of another one. -/
structure Embedding where
  /-- the number that a stream has there -/
  number : Nat → Nat
  different : number.Injective
  /-- the context around the call -/
  outer : Context
  /-- what the bodies of functions may yield -/
  spared : Event → Prop
  spares : ∀ {p name as as'}, spared (.startTag p name as) → spared (.startTag p name as')
  /-- the bodies of functions -/
  captured : BodyId → Option (List Event)
  /-- the functions of the host -/
  host : Host

namespace Embedding

variable (w : Embedding)

/-- The values that the frames hold, if there are so many streams. -/
def stock (l : Nesting) (made : Nat) : Stock where
  function := Function.Closed w.spared w.captured
  stream id := l.Admits id ∧ id < made

/-- The values that the frame of a pending call may hold. -/
def pending (l : Nesting) (id : Nat) : Stock where
  function := Function.Closed w.spared w.captured
  stream n := n < id ∧ ∀ f ∈ l, f.admits id → f.admits n

/-- A call that is pending here and there, or that has been read. -/
inductive Idle (l : Nesting) (id : Nat) : Replay → Replay → Prop
  | waiting {frame : Frame} {es : List Event} (made : Entries.From (w.pending l id) frame)
      (closed : Event.AllClosedIn w.spared (frame.map (·.1)) es) :
      Idle l id (.waiting frame es) (.waiting (Entries.rename w.number frame) es)
  | finished : Idle l id .finished .finished

/-- The calls that have been begun are at the same place here and there. -/
inductive Begun (c s : Store) : Nesting → Prop
  | nil : Begun c s []
  | loop {frame : Frame} {l : Nesting} (made : Entries.From (w.stock l c.replays.size) frame) (lower : Begun c s l) :
      Begun c s (.loop frame :: l)
  | call {id made : Nat} {frame : Frame} {rest : List Event} {l : Nesting}
      (holds : Entries.From (w.stock (.call id made frame rest :: l) c.replays.size) frame) (older : id < made)
      (known : made ≤ c.replays.size) (closed : Event.AllClosedIn w.spared (frame.map (·.1)) rest)
      (here : c.replay id = .running (l.length + 2) rest)
      (there : s.replay (w.number id) = .running (l.length + w.outer.depth + 1) rest) (lower : Begun c s l) :
      Begun c s (.call id made frame rest :: l)

/-- With these frames in force, the store of the call lies inside of the other one. -/
structure Holds (l : Nesting) (c s : Store) : Prop where
  here : c.context = ⟨l.frames, []⟩
  there : s.context = ⟨l.frames.map (Entries.rename w.number) ++ w.outer.upper, w.outer.base⟩
  host : c.host = w.host ∧ s.host = w.host
  begun : w.Begun c s l
  idle : ∀ id < c.replays.size, ¬ l.Reads id → w.Idle l id (c.replay id) (s.replay (w.number id))
  numbers : ∀ n, w.number (c.replays.size + n) = s.replays.size + n
  captured : ∀ b es, w.captured b = some es → c.captured? b = some es ∧ s.captured? b = some es

end Embedding

variable {w : Embedding} {l : Nesting} {c s c' s' : Store} {n m k : Nat}

/-! ## More streams -/

namespace Store

theorem replay_newStream (s : Store) (r : Replay) (id : Nat) :
    (s.newStream r).2.replay id = if id = s.replays.size then r else s.replay id := by
  simp only [newStream, replay, Array.getElem?_push]
  split <;> rfl

theorem size_newStream (s : Store) (r : Replay) : (s.newStream r).2.replays.size = s.replays.size + 1 := Array.size_push _

/-- A stream that is being read has been made. -/
theorem lt_of_running {s : Store} {id depth : Nat} {es : List Event} (h : s.replay id = .running depth es) :
    id < s.replays.size := by
  by_contra beyond
  rw [replay, Array.getElem?_eq_none (Nat.not_lt.1 beyond)] at h
  cases h

end Store

namespace Embedding

theorem stock_le (more : n ≤ m) : w.stock l n ≤ w.stock l m :=
  ⟨fun _ h => h, fun _ h => ⟨h.1, Nat.lt_of_lt_of_le h.2 more⟩⟩

theorem stock_le_loop (frame : Frame) : w.stock l n ≤ w.stock (.loop frame :: l) n :=
  ⟨fun _ h => h, fun _ h => ⟨List.forall_mem_cons.2 ⟨trivial, h.1⟩, h.2⟩⟩

/-- What the frames may hold now may be held by a call made now. -/
theorem stock_le_pending : w.stock l n ≤ w.pending l n := ⟨fun _ h => h, fun _ h => ⟨h.2, fun f hf _ => h.1 f hf⟩⟩

/-- What is being read has been begun below the top. -/
theorem Begun.running (h : w.Begun c s l) {id : Nat} (reads : l.Reads id) :
    (∃ depth es, depth ≤ l.length + 1 ∧ c.replay id = .running depth es) ∧
      ∃ depth es, s.replay (w.number id) = .running depth es := by
  induction h with
  | nil => exact absurd reads Nesting.reads_nil
  | loop made _ ih =>
    obtain ⟨⟨depth, es, low, here⟩, there⟩ := ih (Nesting.reads_loop.1 reads)
    exact ⟨⟨depth, es, Nat.le_succ_of_le low, here⟩, there⟩
  | call holds older known closed here there _ ih =>
    rcases Nesting.reads_call.1 reads with rfl | lower
    · exact ⟨⟨_, _, Nat.le_refl _, here⟩, ⟨_, _, there⟩⟩
    · obtain ⟨⟨depth, es, low, here⟩, there⟩ := ih lower
      exact ⟨⟨depth, es, Nat.le_succ_of_le low, here⟩, there⟩

theorem Begun.mono (h : w.Begun c s l) (more : c.replays.size ≤ c'.replays.size)
    (same : ∀ id, l.Reads id → c'.replay id = c.replay id ∧ s'.replay (w.number id) = s.replay (w.number id)) :
    w.Begun c' s' l := by
  induction h with
  | nil => exact .nil
  | loop made _ ih =>
    exact .loop (made.mono (stock_le more)) (ih fun id reads => same id (Nesting.reads_loop.2 reads))
  | call holds older known closed here there _ ih =>
    obtain ⟨here', there'⟩ := same _ (Nesting.reads_call.2 (.inl rfl))
    exact .call (holds.mono (stock_le more)) older (Nat.le_trans known more) closed (here'.trans here) (there'.trans there)
      (ih fun id reads => same id (Nesting.reads_call.2 (.inr reads)))

/-- A stream that is made now may be among the values under the frames. -/
theorem Begun.admits (h : w.Begun c s l) {id : Nat} (new : c.replays.size ≤ id) : l.Admits id := by
  induction h with
  | nil => simp [Nesting.Admits]
  | loop _ _ ih => exact List.forall_mem_cons.2 ⟨trivial, ih⟩
  | call holds older known closed here there _ ih => exact List.forall_mem_cons.2 ⟨.inr (Nat.le_trans known new), ih⟩

/-- The next stream here is the next stream there. -/
theorem Holds.number_size (h : w.Holds l c s) : w.number c.replays.size = s.replays.size := h.numbers 0

theorem Holds.number_lt (h : w.Holds l c s) {id : Nat} (known : id < c.replays.size) : w.number id < s.replays.size := by
  by_contra beyond
  have same : w.number id = w.number (c.replays.size + (w.number id - s.replays.size)) := by
    rw [h.numbers]
    omega
  have := w.different same
  omega

/-- A call that is made here and there is pending in both. -/
theorem Holds.newStream (h : w.Holds l c s) {frame : Frame} {es : List Event}
    (made : Entries.From (w.stock l c.replays.size) frame) (closed : Event.AllClosedIn w.spared (frame.map (·.1)) es) :
    w.Holds l (c.newStream (.waiting frame es)).2 (s.newStream (.waiting (Entries.rename w.number frame) es)).2 where
  here := h.here
  there := h.there
  host := h.host
  begun := by
    refine h.begun.mono (by rw [Store.size_newStream]; omega) fun id reads => ?_
    obtain ⟨⟨_, _, -, here⟩, ⟨_, _, there⟩⟩ := h.begun.running reads
    rw [Store.replay_newStream, Store.replay_newStream, if_neg (Nat.ne_of_lt (Store.lt_of_running here)),
      if_neg (Nat.ne_of_lt (Store.lt_of_running there))]
    exact ⟨rfl, rfl⟩
  idle id known idle := by
    rw [Store.size_newStream] at known
    rw [Store.replay_newStream, Store.replay_newStream]
    by_cases new : id = c.replays.size
    · subst new
      rw [if_pos rfl, if_pos h.number_size]
      exact .waiting (made.mono stock_le_pending) closed
    · rw [if_neg new, if_neg fun same => new (w.different (same.trans h.number_size.symm))]
      exact h.idle id (by omega) idle
  numbers n := by
    rw [Store.size_newStream, Store.size_newStream, Nat.add_assoc, h.numbers, Nat.add_assoc]
  captured := h.captured

end Embedding

/-! ## Names -/

namespace Entries

theorem find?_of_mem {es : List (Text × Value)} {name : Text} (h : name ∈ es.map (·.1)) : ∃ v, find? name es = some v := by
  obtain ⟨e, he, rfl⟩ := List.mem_map.1 h
  have found : (es.find? (·.1 == e.1)).isSome := List.find?_isSome.2 ⟨e, he, beq_self_eq_true _⟩
  obtain ⟨e', same⟩ := Option.isSome_iff_exists.1 found
  exact ⟨e'.2, by rw [find?, same]; rfl⟩

theorem findSome?_rename {ρ : Nat → Nat} (name : Text) (frames : List Frame) :
    (frames.map (rename ρ)).findSome? (find? name) = (frames.findSome? (find? name)).map (Value.rename ρ) := by
  induction frames with
  | nil => rfl
  | cons frame frames ih =>
    rw [List.map_cons, List.findSome?_cons, List.findSome?_cons, find?_rename, ih]
    cases find? name frame <;> rfl

end Entries

namespace Embedding

theorem Begun.find (h : w.Begun c s l) {name : Text} (bound : name ∈ l.bound) :
    ∃ v, l.frames.findSome? (Entries.find? name) = some v ∧ v.From (w.stock l c.replays.size) := by
  induction h with
  | nil => cases bound
  | @loop frame l made _ ih =>
    cases found : Entries.find? name frame with
    | some v =>
      exact ⟨v, by simp [Nesting.frames, Layer.frame, found], (made.find found).mono (stock_le_loop frame)⟩
    | none =>
      have below : name ∈ l.bound := (List.mem_append.1 bound).resolve_left fun here => by
        obtain ⟨v, some⟩ := Entries.find?_of_mem here
        rw [found] at some
        cases some
      obtain ⟨v, finds, from_⟩ := ih below
      exact ⟨v, by simpa [Nesting.frames, Layer.frame, found] using finds, from_.mono (stock_le_loop frame)⟩
  | call holds =>
    obtain ⟨v, found⟩ := Entries.find?_of_mem bound
    exact ⟨v, by simp [Nesting.frames, Layer.frame, found], holds.find found⟩

/-- A name that is bound is found here and there in the same frame. -/
theorem Holds.get (h : w.Holds l c s) {name : Text} (bound : name ∈ l.bound) :
    s.context.get name = (c.context.get name).rename w.number ∧ (c.context.get name).From (w.stock l c.replays.size) := by
  obtain ⟨v, found, from_⟩ := h.begun.find bound
  have here : c.context.find? name = some v := by
    rw [h.here, Context.find?, Context.frames, List.findSome?_append, found]
    rfl
  have there : s.context.find? name = some (v.rename w.number) := by
    rw [h.there, Context.find?, Context.frames, List.findSome?_append, List.findSome?_append, Entries.findSome?_rename, found]
    rfl
  rw [Context.get, Context.get, here, there]
  exact ⟨rfl, from_⟩

end Embedding

/-! ## Computing here and there -/

namespace Embedding

variable {α β γ δ : Type} {V : Nat → α → β → Prop} {V' : Nat → γ → δ → Prop}

/-- Both computations have failed alike, or both have given what `V` relates, and the one store still lies inside of the
other. -/
inductive Agree (w : Embedding) (l : Nesting) (V : Nat → α → β → Prop) :
    Except Stop (α × Store) → Except Stop (β × Store) → Prop
  | error (why : Stop) : Agree w l V (.error why) (.error why)
  | ok {a : α} {b : β} {c s : Store} (holds : w.Holds l c s) (value : V c.replays.size a b) :
      Agree w l V (.ok (a, c)) (.ok (b, s))

theorem Agree.imp {V V' : Nat → α → β → Prop} {x : Except Stop (α × Store)} {y : Except Stop (β × Store)} (h : Agree w l V x y)
    (implies : ∀ size a b, V size a b → V' size a b) : Agree w l V' x y := by
  cases h with
  | error why => exact .error why
  | ok holds value => exact .ok holds (implies _ _ _ value)

/-- The computations come to the same here and there, once there are `n` streams. -/
def Mirrored (w : Embedding) (l : Nesting) (n : Nat) (m : Eval α) (m' : Eval β) (V : Nat → α → β → Prop) : Prop :=
  ∀ c s, w.Holds l c s → n ≤ c.replays.size → Agree w l (fun size a b => n ≤ size ∧ V size a b) (m c) (m' s)

theorem mirrored_pure {a : α} {b : β} (h : ∀ size, n ≤ size → V size a b) : Mirrored w l n (pure a) (pure b) V :=
  fun _ _ holds more => .ok holds ⟨more, h _ more⟩

theorem mirrored_stop (why : Stop) : Mirrored w l n (Eval.stop why) (Eval.stop why) V := fun _ _ _ _ => .error why

theorem mirrored_fail (e : EvalError) : Mirrored w l n (Eval.fail e) (Eval.fail e) V := mirrored_stop _

theorem mirrored_ofResult {r : Value.Result α} {r' : Value.Result β} {f : α → β} (same : r' = r.map f)
    (h : ∀ a, r = .ok a → ∀ size, n ≤ size → V size a (f a)) : Mirrored w l n (Eval.ofResult r) (Eval.ofResult r') V := by
  subst same
  cases r with
  | ok a => exact mirrored_pure (h a rfl)
  | error e => exact mirrored_fail e

theorem Mirrored.bind {m : Eval α} {m' : Eval β} {f : α → Eval γ} {f' : β → Eval δ} (hm : Mirrored w l n m m' V)
    (hf : ∀ size a b, n ≤ size → V size a b → Mirrored w l size (f a) (f' b) V') :
    Mirrored w l n (m >>= f) (m' >>= f') V' := by
  intro c s holds more
  have first := hm c s holds more
  change Agree w l _ ((m c).bind fun p => f p.1 p.2) ((m' s).bind fun p => f' p.1 p.2)
  generalize m c = x, m' s = y at first
  cases first with
  | error => exact .error _
  | @ok a b c s holds value =>
    have second := hf _ a b value.1 value.2 c s holds (Nat.le_refl _)
    exact second.imp fun _ _ _ result => ⟨Nat.le_trans value.1 result.1, result.2⟩

/-- The value there is the value here with the numbers that its streams have there. -/
def Image (w : Embedding) (l : Nesting) (size : Nat) (v v' : Value) : Prop :=
  v' = v.rename w.number ∧ v.From (w.stock l size)

def Images (w : Embedding) (l : Nesting) (size : Nat) (vs vs' : List Value) : Prop :=
  vs' = vs.map (Value.rename w.number) ∧ ∀ v ∈ vs, v.From (w.stock l size)

def EntryImages (w : Embedding) (l : Nesting) (size : Nat) (es es' : List (Text × Value)) : Prop :=
  es' = Entries.rename w.number es ∧ Entries.From (w.stock l size) es

variable {v v' : Value} {vs vs' : List Value} {es es' : List (Text × Value)}

theorem Image.mono (h : w.Image l n v v') (more : n ≤ m) : w.Image l m v v' := ⟨h.1, h.2.mono (stock_le more)⟩

theorem Images.mono (h : w.Images l n vs vs') (more : n ≤ m) : w.Images l m vs vs' :=
  ⟨h.1, fun v hv => (h.2 v hv).mono (stock_le more)⟩

theorem EntryImages.mono (h : w.EntryImages l n es es') (more : n ≤ m) : w.EntryImages l m es es' :=
  ⟨h.1, h.2.mono (stock_le more)⟩

/-- The result of an operation on values, which makes no streams. -/
theorem mirrored_operation {r r' : Value.Result Value} (same : r' = r.map (Value.rename w.number))
    (made : ∀ v, r = .ok v → v.From (w.stock l n)) : Mirrored w l n (Eval.ofResult r) (Eval.ofResult r') (w.Image l) :=
  mirrored_ofResult same fun v hv _ more => ⟨rfl, (made v hv).mono (stock_le more)⟩

end Embedding

/-! ## Expressions -/

namespace Expr

open Stencil.Embedding

/-- The ways to call functions do the same with functions that are closed. -/
def Mirrors (w : Embedding) (l : Nesting) (call call' : Caller) : Prop :=
  ∀ n f a a', Function.Closed w.spared w.captured f → w.Images l n a.positional a'.positional →
    w.EntryImages l n a.keywords a'.keywords → Mirrored w l n (call f a) (call' f a') (w.Image l)

variable {call call' : Caller}

theorem lookup_mirrored {name : Text} (bound : name ∈ l.bound) (other : name ≠ "defined") :
    Mirrored w l n (lookup name) (lookup name) (w.Image l) := by
  intro c s holds more
  obtain ⟨same, made⟩ := holds.get bound
  change Agree w l _ ((if (c.context.get name).isUndefined then builtin name else pure (c.context.get name)) c)
    ((if (s.context.get name).isUndefined then builtin name else pure (s.context.get name)) s)
  rw [same, Value.isUndefined_rename]
  split
  · have known (f : Function) (closed : f.Closed w.spared w.captured) :
        Mirrored w l n (pure (.function f)) (pure (.function f)) (w.Image l) := mirrored_pure fun _ _ => ⟨rfl, closed⟩
    unfold builtin
    split
    · exact known ⟨0, .length⟩ trivial c s holds more
    · split
      · exact known ⟨1, .text⟩ trivial c s holds more
      · split
        · exact known ⟨2, .range⟩ trivial c s holds more
        · split
          · rename_i is
            exact absurd (by simpa using is) other
          · exact mirrored_pure (fun _ _ => ⟨rfl, trivial⟩) c s holds more
  · exact .ok holds ⟨more, rfl, made⟩

theorem checkCallee_mirrored (callee : Expr) (v : Value) :
    Mirrored w l n (checkCallee callee v) (checkCallee callee (v.rename w.number)) fun _ _ _ => True := by
  unfold checkCallee
  split
  · rw [Value.isUndefined_rename]
    split
    · exact mirrored_fail _
    · exact mirrored_pure fun _ _ => trivial
  · exact mirrored_pure fun _ _ => trivial

theorem apply_mirrored (calls : Mirrors w l call call') {v v' : Value} {a a' : Arguments} (callee : w.Image l n v v')
    (positional : w.Images l n a.positional a'.positional) (keywords : w.EntryImages l n a.keywords a'.keywords) :
    Mirrored w l n (apply call v a) (apply call' v' a') (w.Image l) := by
  obtain ⟨rfl, made⟩ := callee
  cases v with
  | function f => exact calls n f a a' made positional keywords
  | _ => exact mirrored_fail _

theorem dictKey_mirrored (v : Value) :
    Mirrored w l n (dictKey v) (dictKey (v.rename w.number)) fun _ key key' => key' = key := by
  cases v with
  | text t => exact mirrored_pure fun _ _ => rfl
  | _ => exact mirrored_fail _

mutual

/-- **What is closed comes to the same here and there.** -/
theorem evalWith_mirrored (calls : Mirrors w l call call') (n : Nat) (e : Expr) (closed : Names.ClosedIn l.bound e.names) :
    Mirrored w l n (evalWith call e) (evalWith call' e) (w.Image l) := by
  cases e with
  | literal t => cases t <;> exact mirrored_pure fun _ _ => ⟨rfl, trivial⟩
  | name x =>
    obtain ⟨bound, other⟩ := closed x (List.mem_singleton_self x)
    exact lookup_mirrored bound other
  | member object x =>
    refine (evalWith_mirrored calls _ object closed).bind ?_
    rintro size v _ - ⟨rfl, made⟩
    exact mirrored_operation (v.member_rename x) fun _ => made.member
  | item object key =>
    obtain ⟨first, second⟩ := Names.closedIn_append.1 closed
    refine (evalWith_mirrored calls _ object first).bind ?_
    rintro size v _ - ⟨rfl, made⟩
    refine (evalWith_mirrored calls _ key second).bind ?_
    rintro size' key _ more ⟨rfl, -⟩
    exact mirrored_operation (v.item_rename key) fun _ => (made.mono (stock_le more)).item
  | call function arguments keywords =>
    obtain ⟨first, third⟩ := Names.closedIn_append.1 closed
    obtain ⟨first, second⟩ := Names.closedIn_append.1 first
    refine (evalWith_mirrored calls _ function first).bind ?_
    rintro size f _ - ⟨rfl, callee⟩
    refine (checkCallee_mirrored function f).bind fun size' _ _ more _ => ?_
    refine (evalAll_mirrored calls _ arguments second).bind fun size₂ vs vs' more₂ positional => ?_
    refine (evalKeywords_mirrored calls _ keywords third [] [] ⟨rfl, .nil⟩).bind fun size₃ es es' more₃ named => ?_
    exact apply_mirrored calls ⟨rfl, callee.mono (stock_le (by omega))⟩ (positional.mono more₃) named
  | list elements =>
    refine (evalAll_mirrored calls _ elements closed).bind ?_
    rintro size vs _ - ⟨rfl, made⟩
    exact mirrored_pure fun _ more =>
      ⟨(Value.rename_list vs).symm, Value.from_list.2 fun v hv => (made v hv).mono (stock_le more)⟩
  | dict entries =>
    refine (evalEntries_mirrored calls _ entries closed [] [] ⟨rfl, .nil⟩).bind ?_
    rintro size es _ - ⟨rfl, made⟩
    exact mirrored_pure fun _ more => ⟨(Value.rename_dict es).symm, Value.from_dict.2 (made.mono (stock_le more))⟩
  | unary op operand =>
    refine (evalWith_mirrored calls _ operand closed).bind ?_
    rintro size v _ - ⟨rfl, -⟩
    exact mirrored_operation (Value.applyUnary_rename op v) fun _ => .applyUnary
  | binary op left right =>
    obtain ⟨first, second⟩ := Names.closedIn_append.1 closed
    refine (evalWith_mirrored calls _ left first).bind ?_
    rintro size a _ - ⟨rfl, ha⟩
    have given : Mirrored w l size (pure a) (pure (a.rename w.number)) (w.Image l) :=
      mirrored_pure fun _ more => ⟨rfl, ha.mono (stock_le more)⟩
    have next := evalWith_mirrored calls size right second
    cases op with
    | and =>
      change Mirrored w l size (if a.isTrue then evalWith call right else pure a)
        (if (a.rename w.number).isTrue then evalWith call' right else pure (a.rename w.number)) _
      rw [Value.isTrue_rename]
      split
      · exact next
      · exact given
    | or =>
      change Mirrored w l size (if a.isTrue then pure a else evalWith call right)
        (if (a.rename w.number).isTrue then pure (a.rename w.number) else evalWith call' right) _
      rw [Value.isTrue_rename]
      split
      · exact given
      · exact next
    | _ =>
      refine next.bind ?_
      rintro size' b _ more ⟨rfl, hb⟩
      exact mirrored_operation (Value.applyBinary_rename w.different _ a b) fun _ => (ha.mono (stock_le more)).applyBinary hb
  | conditional test value other =>
    obtain ⟨first, third⟩ := Names.closedIn_append.1 closed
    obtain ⟨first, second⟩ := Names.closedIn_append.1 first
    refine (evalWith_mirrored calls _ test first).bind ?_
    rintro size t _ - ⟨rfl, -⟩
    rw [Value.isTrue_rename]
    split
    · exact evalWith_mirrored calls _ value second
    · exact evalWith_mirrored calls _ other third

theorem evalAll_mirrored (calls : Mirrors w l call call') (n : Nat) (es : List Expr)
    (closed : Names.ClosedIn l.bound (namesOf es)) :
    Mirrored w l n (evalAll call es) (evalAll call' es) (w.Images l) := by
  cases es with
  | nil => exact mirrored_pure fun _ _ => ⟨rfl, by simp⟩
  | cons e es =>
    obtain ⟨first, rest⟩ := Names.closedIn_append.1 closed
    refine (evalWith_mirrored calls _ e first).bind ?_
    rintro size v _ - ⟨rfl, made⟩
    refine (evalAll_mirrored calls _ es rest).bind ?_
    rintro size' vs _ more ⟨rfl, others⟩
    exact mirrored_pure fun _ more' => ⟨rfl, List.forall_mem_cons.2 ⟨made.mono (stock_le (by omega)), fun v hv =>
      (others v hv).mono (stock_le more')⟩⟩

theorem evalKeywords_mirrored (calls : Mirrors w l call call') (n : Nat) (es : List (Text × Expr))
    (closed : Names.ClosedIn l.bound (namesOfKeywords es)) (acc acc' : List (Text × Value)) (images : w.EntryImages l n acc acc') :
    Mirrored w l n (evalKeywords call es acc) (evalKeywords call' es acc') (w.EntryImages l) := by
  cases es with
  | nil => exact mirrored_pure fun _ more => images.mono more
  | cons e es =>
    obtain ⟨key, e⟩ := e
    obtain ⟨first, rest⟩ := Names.closedIn_append.1 closed
    refine (evalWith_mirrored calls _ e first).bind ?_
    rintro size v _ more ⟨rfl, made⟩
    obtain ⟨rfl, others⟩ := images.mono more
    exact evalKeywords_mirrored calls _ es rest _ _ ⟨Entries.insert_rename key v acc, others.insert made⟩

theorem evalEntries_mirrored (calls : Mirrors w l call call') (n : Nat) (es : List (Expr × Expr))
    (closed : Names.ClosedIn l.bound (namesOfEntries es)) (acc acc' : List (Text × Value)) (images : w.EntryImages l n acc acc') :
    Mirrored w l n (evalEntries call es acc) (evalEntries call' es acc') (w.EntryImages l) := by
  cases es with
  | nil => exact mirrored_pure fun _ more => images.mono more
  | cons e es =>
    obtain ⟨k, e⟩ := e
    obtain ⟨first, rest⟩ := Names.closedIn_append.1 closed
    obtain ⟨first, second⟩ := Names.closedIn_append.1 first
    refine (evalWith_mirrored calls _ k first).bind ?_
    rintro size kv _ more ⟨rfl, -⟩
    refine (dictKey_mirrored kv).bind ?_
    rintro size' key key' more' same
    subst same
    refine (evalWith_mirrored calls _ e second).bind ?_
    rintro size₂ v _ more₂ ⟨rfl, made⟩
    obtain ⟨rfl, others⟩ := images.mono (m := size₂) (by omega)
    exact evalEntries_mirrored calls _ es rest _ _ ⟨Entries.insert_rename _ v acc, others.insert made⟩

end

end Expr

/-- An expression that can't be read fails in the same way; others come to the same. -/
theorem Expression.evalWith_mirrored {call call' : Expr.Caller} (calls : Expr.Mirrors w l call call') (n : Nat) (x : Expression)
    (closed : x.ClosedIn l.bound) :
    Embedding.Mirrored w l n (x.evalWith call) (x.evalWith call') (w.Image l) := by
  unfold Expression.ClosedIn Expression.names at closed
  unfold Expression.evalWith
  generalize x.tree = read at closed
  cases read with
  | ok tree => exact Expr.evalWith_mirrored calls n tree closed
  | error => exact Embedding.mirrored_stop _

/-! ## Functions -/

namespace Frame

theorem names_bind (frame : Frame) (name : Text) (v : Value) : (frame.bind name v).map (·.1) =
    if name ∈ frame.map (·.1) then frame.map (·.1) else frame.map (·.1) ++ [name] := by
  induction frame with
  | nil => rfl
  | cons e es ih =>
    simp only [bind, List.map_cons, List.mem_cons]
    by_cases here : e.1 = name
    · simp [here]
    · rw [if_neg (by simpa using here), List.map_cons, ih]
      split
      · rename_i later
        rw [if_pos (.inr later)]
      · rename_i absent
        rw [if_neg (by simp [Ne.symm here, absent])]
        rfl

theorem mem_bind (frame : Frame) (name : Text) (v : Value) : name ∈ (frame.bind name v).map (·.1) := by
  rw [names_bind]
  split
  · assumption
  · simp

theorem subset_bind (frame : Frame) (name : Text) (v : Value) : frame.map (·.1) ⊆ (frame.bind name v).map (·.1) := by
  rw [names_bind]
  split
  · exact List.Subset.refl _
  · exact List.subset_append_left _ _

end Frame

namespace Function

open Stencil.Embedding

theorem bindParameters_mirrored {evalDefault evalDefault' : Expression → Eval Value} {ps : List Parameter}
    (defaults : ∀ p ∈ ps, ∀ x ∈ p.default?, ∀ n, Mirrored w l n (evalDefault x) (evalDefault' x) (w.Image l)) (n : Nat)
    {vs vs' : List Value} {es es' : List (Text × Value)} {frame frame' : Frame} (positional : w.Images l n vs vs')
    (keywords : w.EntryImages l n es es') (frames : w.EntryImages l n frame frame') :
    Mirrored w l n (bindParameters evalDefault es ps vs frame) (bindParameters evalDefault' es' ps vs' frame')
      fun size f f' => w.EntryImages l size f f' ∧ frame.map (·.1) ⊆ f.map (·.1) ∧ ps.map (·.name) ⊆ f.map (·.1) := by
  induction ps generalizing n vs vs' frame frame' with
  | nil => exact mirrored_pure fun _ more => ⟨frames.mono more, List.Subset.refl _, List.nil_subset _⟩
  | cons p ps ih =>
    obtain ⟨first, others⟩ := List.forall_mem_cons.1 defaults
    -- with a value for the parameter
    have next (size : Nat) (v v' : Value) {vs vs' : List Value} (more : n ≤ size) (image : w.Image l size v v')
        (rest : w.Images l size vs vs') :
        Mirrored w l size (bindParameters evalDefault es ps vs (frame.bind p.name v))
          (bindParameters evalDefault' es' ps vs' (frame'.bind p.name v'))
          fun size f f' => w.EntryImages l size f f' ∧ frame.map (·.1) ⊆ f.map (·.1) ∧
            (p :: ps).map (·.name) ⊆ f.map (·.1) := by
      obtain ⟨rfl, holds⟩ := frames.mono more
      obtain ⟨rfl, made⟩ := image
      have bound : w.EntryImages l size (frame.bind p.name v)
        (Frame.bind (Entries.rename w.number frame) p.name (v.rename w.number)) :=
        ⟨Frame.bind_rename frame p.name v, Frame.from_bind holds made⟩
      intro c s holds known
      refine (ih others size rest (keywords.mono more) bound c s holds known).imp ?_
      rintro size f f' ⟨more, image, wider, bound⟩
      exact ⟨more, image, List.Subset.trans (Frame.subset_bind frame p.name v) wider,
        List.cons_subset.2 ⟨wider (Frame.mem_bind frame p.name v), bound⟩⟩
    obtain ⟨rfl, made⟩ := positional
    cases vs with
    | cons v vs =>
      obtain ⟨here, rest⟩ := List.forall_mem_cons.1 made
      exact next n v _ (Nat.le_refl _) ⟨rfl, here⟩ ⟨rfl, rest⟩
    | nil =>
      have nothing (size : Nat) : w.Images l size [] [] := ⟨rfl, by simp⟩
      obtain ⟨rfl, named⟩ := keywords
      rw [List.map_nil, bindParameters, bindParameters, Entries.find?_rename]
      cases found : Entries.find? p.name es with
      | some v =>
        exact (mirrored_pure (V := w.Image l) fun _ more => ⟨rfl, (named.find found).mono (stock_le more)⟩).bind
          fun size v v' more image => next size v v' more image (nothing size)
      | none =>
        cases default : p.default? with
        | some x =>
          exact (first x default n).bind fun size v v' more image => next size v v' more image (nothing size)
        | none =>
          exact (mirrored_pure (V := w.Image l) (a := .none) fun _ _ => ⟨rfl, trivial⟩).bind
            fun size v v' more image => next size v v' more image (nothing size)

theorem lengthOf_rename (ρ : Nat → Nat) (vs : List Value) :
    lengthOf (vs.map (Value.rename ρ)) = (lengthOf vs).map (Value.rename ρ) := by
  match vs with
  | [v] => cases v <;> simp [lengthOf, Except.map, Entries.rename, Value.type]
  | [] | _ :: _ :: _ => simp [lengthOf, Except.map]

theorem textOf_rename (ρ : Nat → Nat) (vs : List Value) :
    textOf (vs.map (Value.rename ρ)) = (textOf vs).map (Value.rename ρ) := by
  match vs with
  | [v] => simp [textOf, Except.map]
  | [] | _ :: _ :: _ => rfl

theorem rangeBetween_mirrored (fuel : Nat) (start stop step : Int64) :
    Mirrored w l n (rangeBetween fuel start stop step) (rangeBetween fuel start stop step) (w.Image l) := by
  unfold rangeBetween
  split
  · exact mirrored_fail _
  · cases h : Value.range fuel start stop step with
    | none => exact mirrored_stop _
    | some vs =>
      have plain {k : Stock} : (Value.list vs).From k := Value.from_list.2 (rangeFrom_of_le (Nat.le_refl _) (by simp) h).2
      exact mirrored_pure fun _ _ =>
        ⟨(Value.rename_of_from (k := ⟨fun _ => True, fun _ => False⟩) (by simp) _ plain).symm, plain⟩

theorem rangeOf_mirrored (fuel : Nat) (vs : List Value) :
    Mirrored w l n (rangeOf fuel vs) (rangeOf fuel (vs.map (Value.rename w.number))) (w.Image l) := by
  have bound (n : Nat) (v : Value) : Mirrored w l n (Eval.ofResult v.asInt) (Eval.ofResult (v.rename w.number).asInt)
      fun _ i j => j = i := by
    rw [Value.asInt_rename]
    exact mirrored_ofResult (f := fun i => i) (by cases v.asInt <;> rfl) fun _ _ _ _ => rfl
  match vs with
  | [] | _ :: _ :: _ :: _ :: _ => exact mirrored_fail _
  | [stop] =>
    refine (bound n stop).bind ?_
    rintro _ b _ - rfl
    exact rangeBetween_mirrored fuel _ _ _
  | [start, stop] =>
    refine (bound n start).bind ?_
    rintro size a _ - rfl
    refine (bound size stop).bind ?_
    rintro _ b _ - rfl
    exact rangeBetween_mirrored fuel _ _ _
  | [start, stop, step] =>
    refine (bound n start).bind ?_
    rintro size a _ - rfl
    refine (bound size stop).bind ?_
    rintro size' b _ - rfl
    refine (bound size' step).bind ?_
    rintro _ i _ - rfl
    exact rangeBetween_mirrored fuel _ _ _

/-- **Calling a closed function** comes to the same here and there. -/
theorem call_mirrored (k : Nat) : Expr.Mirrors w l (call k) (call k) := by
  induction k with
  | zero => exact fun _ _ _ _ _ _ _ => mirrored_stop _
  | succ k ih =>
    rintro n ⟨id, kind⟩ ⟨vs, es⟩ ⟨vs', es'⟩ closed positional keywords
    obtain ⟨rfl, made⟩ := positional
    obtain ⟨rfl, named⟩ := keywords
    unfold call
    cases kind with
    | length => exact mirrored_operation (lengthOf_rename _ vs) fun _ => lengthOf_from
    | text => exact mirrored_operation (textOf_rename _ vs) fun _ => textOf_from
    | range => exact rangeOf_mirrored k vs
    | host name number =>
      intro c s store more
      simp only [store.host.1, store.host.2]
      exact mirrored_operation (w.host.call_rename number ⟨vs, es⟩ w.different) (fun _ => Host.from_call ⟨made, named⟩) c s
        store more
    | defined | select => exact closed.elim
    | template signature body =>
      obtain ⟨constant, events, captured, closed⟩ := closed
      have defaults : ∀ p ∈ signature.parameters, ∀ x ∈ p.default?, ∀ n,
          Mirrored w l n (Expression.evalWith (call k) x) (Expression.evalWith (call k) x) (w.Image l) := by
        intro p hp x hx n
        have nameless := constant p hp x hx
        exact x.evalWith_mirrored ih n (by simp [Expression.ClosedIn, Names.ClosedIn, nameless])
      refine (bindParameters_mirrored defaults n ⟨rfl, made⟩ ⟨rfl, named⟩ ⟨rfl, .nil⟩).bind ?_
      rintro size frame _ - ⟨⟨rfl, holds⟩, -, bound⟩ c s store more
      obtain ⟨here, there⟩ := store.captured body events captured
      have next := store.newStream (holds.mono (stock_le more)) (Event.AllClosedIn.mono bound events closed)
      have bodies : c.body body = events ∧ s.body body = events := by simp [Store.body, here, there]
      change Agree w l _ (.ok (c.newStream (.waiting frame (c.body body))))
        (.ok (s.newStream (.waiting (Entries.rename w.number frame) (s.body body))))
      rw [bodies.1, bodies.2]
      have made : c.replays.size < (c.newStream (.waiting frame events)).2.replays.size := by
        rw [Store.size_newStream]
        omega
      exact .ok next ⟨Nat.le_trans more (Nat.le_of_lt made), congrArg Value.stream store.number_size.symm,
        store.begun.admits (Nat.le_refl _), made⟩

end Function

/-! ## Expressions of templates -/

open Stencil.Embedding

/-- **An expression that is closed comes to the same here and there.** -/
theorem Expression.eval_mirrored (k n : Nat) {x : Expression} (closed : x.ClosedIn l.bound) :
    Mirrored w l n (x.eval k) (x.eval k) (w.Image l) :=
  x.evalWith_mirrored (Function.call_mirrored k) n closed

theorem Attribute.evalFragments_mirrored (k n : Nat) {fs : List Fragment}
    (closed : ∀ x ∈ fs.filterMap Fragment.expression?, x.ClosedIn l.bound) :
    Mirrored w l n (evalFragments k fs) (evalFragments k fs) fun _ t? t?' => t?' = t? := by
  induction fs generalizing n with
  | nil => exact mirrored_pure fun _ _ => rfl
  | cons f fs ih =>
    cases f with
    | literal t =>
      refine (ih n closed).bind ?_
      rintro size rest _ - rfl
      exact mirrored_pure fun _ _ => rfl
    | expression x =>
      obtain ⟨first, others⟩ := List.forall_mem_cons.1 closed
      refine (x.eval_mirrored k n first).bind ?_
      rintro size v _ - ⟨rfl, -⟩
      refine (ih size others).bind ?_
      rintro size' rest _ - rfl
      rw [Value.isNull_rename, Value.toText_rename]
      exact mirrored_pure fun _ _ => rfl

/-- Attributes that are closed come to the same. -/
theorem Attributes.eval_mirrored (k n : Nat) {as : Attributes} (closed : as.ClosedIn l.bound) :
    Mirrored w l n (Attributes.eval k as) (Attributes.eval k as) fun _ as as' => as' = as := by
  induction as generalizing n with
  | nil => exact mirrored_pure fun _ _ => rfl
  | cons a as ih =>
    obtain ⟨first, others⟩ := List.forall_mem_cons.1 closed
    have one : Mirrored w l n (a.eval k) (a.eval k) fun _ a? a?' => a?' = a? := by
      unfold Attribute.eval
      split
      · exact mirrored_pure fun _ _ => rfl
      · refine (Attribute.evalFragments_mirrored k n first).bind ?_
        rintro size t? _ - rfl
        exact mirrored_pure fun _ _ => rfl
    refine one.bind ?_
    rintro size a? _ - rfl
    refine (ih size others).bind ?_
    rintro size' rest _ - rfl
    exact mirrored_pure fun _ _ => rfl

end Stencil
