import Stencil.Proofs.Expr.Simulation
import Stencil.Stream.Tag

/-!
# The effect of evaluation

Consequences of `Expression.eval_simulates`. Evaluation changes nothing in the store but that there
are more functions and streams in it (`Store.Made`). If no value at hand is a stream or can make one,
evaluation only numbers functions. A result that is not for want of fuel stays the same with more fuel.
And from two stores that evaluation can't tell apart it comes to the same (`Expression.eval_twins`).
-/

namespace Stencil

/-! ## Stocks -/

namespace Stock

/-- All functions and streams. -/
def all : Stock := ⟨fun _ => True, fun _ => True⟩

/-- No streams, and no functions that give one. -/
def streamless : Stock where
  function f := match f.kind with
    | .template .. | .select _ => False
    | _ => True
  stream _ := False

end Stock

mutual

theorem Value.from_all (v : Value) : v.From .all := by
  cases v with
  | function | stream => trivial
  | list vs => exact Value.allFrom_all vs
  | dict es => exact Value.entriesFrom_all es
  | _ => trivial

theorem Value.allFrom_all (vs : List Value) : Value.AllFrom .all vs := by
  cases vs with
  | nil => trivial
  | cons v vs => exact ⟨v.from_all, Value.allFrom_all vs⟩

theorem Value.entriesFrom_all (es : List (Text × Value)) : Value.EntriesFrom .all es := by
  cases es with
  | nil => trivial
  | cons e es => exact ⟨e.2.from_all, Value.entriesFrom_all es⟩

end

theorem Context.from_all (c : Context) : c.From .all := fun _ _ e _ => e.2.from_all

/-! ## Keeping an invariant -/

namespace Eval

variable {α : Type} {k : Stock} {I : Store → Prop} {Q : α → Prop} {m m' : Eval α}

/-- The relation that holds of a store with an invariant and itself. -/
def Same (I : Store → Prop) (s s' : Store) : Prop := s = s' ∧ I s

theorem Simulates.keeps (h : Simulates (Same I) m m Q) {s s' : Store} {a : α} (hs : I s) (r : m s = .ok (a, s')) :
    I s' ∧ Q a := by
  have agree := h s s ⟨rfl, hs⟩
  rw [r] at agree
  cases agree with
  | ok related value => exact ⟨related.2, value⟩

theorem Simulates.same (h : Simulates (Same I) m m' Q) {s : Store} (hs : I s) (enough : m s ≠ .error .outOfFuel) :
    m' s = m s := by
  have agree := h s s ⟨rfl, hs⟩
  generalize m s = x, m' s = y at agree enough
  cases agree with
  | outOfFuel => exact absurd rfl enough
  | error => rfl
  | ok related => rw [related.1]

theorem Simulates.stops (h : Simulates (Same I) m m Q) {s : Store} {why : Stop} (hs : I s) (r : m s = .error why) :
    why.OfExpression := by
  have agree := h s s ⟨rfl, hs⟩
  rw [r] at agree
  cases agree with
  | outOfFuel => trivial
  | error plain => exact plain

end Eval

open Eval

/-! ## Making functions and streams -/

namespace Store

/-- The second store differs from the first only in that functions have been made, and streams none of
which has a frame in force. -/
structure Made (s s' : Store) : Prop where
  only : s' = { s with nextFunction := s'.nextFunction, replays := s'.replays }
  replays : ∃ rs : List Replay, s'.replays = s.replays ++ rs.toArray ∧ ∀ r ∈ rs, ∀ depth es, r ≠ .running depth es

theorem Made.refl (s : Store) : Made s s := ⟨rfl, [], by simp, by simp⟩

theorem Made.counter {s s' : Store} (h : Made s s') (n : Nat) : Made s { s' with nextFunction := n } := by
  obtain ⟨only, replays⟩ := h
  exact ⟨by rw [only], replays⟩

theorem Made.newStream {s s' : Store} (h : Made s s') {r : Replay} (idle : ∀ depth es, r ≠ .running depth es) :
    Made s (s'.newStream r).2 := by
  obtain ⟨only, rs, replays, idles⟩ := h
  refine ⟨by rw [only]; rfl, rs ++ [r], ?_, ?_⟩
  · simp [Store.newStream, replays]
  · intro q hq
    rcases List.mem_append.1 hq with hq | hq
    · exact idles q hq
    · rw [List.mem_singleton.1 hq]; exact idle

end Store

/-- Evaluation may make any functions and streams. -/
theorem allows_made (s : Store) : Allows .all (Same s.Made) where
  context := by
    rintro t _ ⟨rfl, -⟩
    exact ⟨rfl, t.context.from_all⟩
  host := fun r => congrArg Store.host r.1
  counter := by
    rintro t _ ⟨rfl, made⟩
    exact ⟨rfl, rfl, made.counter _⟩
  builtin := fun _ => trivial
  template := by
    rintro t _ f signature body frame ⟨rfl, made⟩ - - -
    exact ⟨rfl, trivial, rfl, made.newStream (by simp)⟩
  select := by
    rintro t _ f matched path ⟨rfl, made⟩ - -
    exact ⟨rfl, trivial, rfl, made.newStream (by simp)⟩

/-- Evaluation without streams only numbers functions. -/
theorem allows_streamless {s : Store} (h : s.context.From .streamless) :
    Allows .streamless (Same fun t => ∃ n, t = { s with nextFunction := n }) where
  context := by
    rintro _ _ ⟨rfl, n, rfl⟩
    exact ⟨rfl, h⟩
  host := fun r => congrArg Store.host r.1
  counter := by
    rintro _ _ ⟨rfl, n, rfl⟩
    exact ⟨rfl, rfl, n + 1, rfl⟩
  builtin := by
    rintro id kind (rfl | rfl | rfl | rfl) <;> trivial
  template := by
    rintro t _ ⟨id, kind⟩ signature body frame - hf rfl
    exact hf.elim
  select := by
    rintro t _ ⟨id, kind⟩ matched path - hf rfl
    exact hf.elim

/-! ## Expressions and attributes -/

variable {fuel fuel' : Nat} {s s' : Store}

theorem Expression.eval_made {e : Expression} {v : Value} (r : e.eval fuel s = .ok (v, s')) : s.Made s' :=
  ((e.eval_simulates (allows_made s) (Nat.le_refl _)).keeps (.refl s) r).1

theorem Attributes.eval_made {as as' : Attributes} (r : as.eval fuel s = .ok (as', s')) : s.Made s' :=
  ((as.eval_simulates (allows_made s) (Nat.le_refl _)).keeps (.refl s) r).1

theorem Expression.eval_streamless {e : Expression} {v : Value} (h : s.context.From .streamless)
    (r : e.eval fuel s = .ok (v, s')) : (∃ n, s' = { s with nextFunction := n }) ∧ v.From .streamless :=
  (e.eval_simulates (allows_streamless h) (Nat.le_refl _)).keeps ⟨_, rfl⟩ r

theorem Attributes.eval_streamless {as as' : Attributes} (h : s.context.From .streamless)
    (r : as.eval fuel s = .ok (as', s')) : ∃ n, s' = { s with nextFunction := n } :=
  ((as.eval_simulates (allows_streamless h) (Nat.le_refl _)).keeps ⟨_, rfl⟩ r).1

/-- An expression that can't be read or evaluated stops without a place. -/
theorem Expression.eval_stops {e : Expression} {why : Stop} (r : e.eval fuel s = .error why) : why.OfExpression :=
  (e.eval_simulates (allows_made s) (Nat.le_refl _)).stops (.refl s) r

/-- More fuel changes no value. -/
theorem Expression.eval_of_le {e : Expression} (le : fuel ≤ fuel') (enough : e.eval fuel s ≠ .error .outOfFuel) :
    e.eval fuel' s = e.eval fuel s :=
  (e.eval_simulates (allows_made s) le).same (.refl s) enough

theorem Attributes.eval_of_le {as : Attributes} (le : fuel ≤ fuel') (enough : as.eval fuel s ≠ .error .outOfFuel) :
    as.eval fuel' s = as.eval fuel s :=
  (as.eval_simulates (allows_made s) le).same (.refl s) enough

/-! ## The expressions of an event -/

def Fragment.expression? : Fragment → Option Expression
  | literal _ => none
  | expression x => some x

/-- The expressions of an attribute, in order. -/
def Attribute.expressions (a : Attribute) : List Expression := a.value.filterMap Fragment.expression?

/-- The expressions of an event that is no element, in the order in which they are evaluated. -/
def Event.expressions : Event → List Expression
  | .startTag _ _ as => as.flatMap Attribute.expressions
  | .expression _ x => [x]
  | _ => []

namespace Eval

/-- A computation goes on with what the first part gives. -/
theorem bind_of_ok {α β : Type} {m : Eval α} {f : α → Eval β} {a : α} (h : m s = .ok (a, s')) :
    (m >>= f) s = f a s' := by
  change (m s).bind (fun p => f p.1 p.2) = f a s'
  rw [h]
  rfl

/-- A computation fails where its first part does. -/
theorem bind_of_error {α β : Type} {m : Eval α} {f : α → Eval β} {why : Stop} (h : m s = .error why) :
    (m >>= f) s = .error why := by
  change (m s).bind (fun p => f p.1 p.2) = .error why
  rw [h]
  rfl

/-- A computation that succeeds has done so in its first part. -/
theorem of_bind_ok {α β : Type} {m : Eval α} {f : α → Eval β} {b : β} (h : (m >>= f) s = .ok (b, s')) :
    ∃ a t, m s = .ok (a, t) ∧ f a t = .ok (b, s') := by
  change (m s).bind (fun p => f p.1 p.2) = .ok (b, s') at h
  cases first : m s with
  | error why => rw [first] at h; cases h
  | ok p =>
    rw [first] at h
    exact ⟨p.1, p.2, rfl, h⟩

/-- A computation that fails has done so in its first part or after it. -/
theorem of_bind_error {α β : Type} {m : Eval α} {f : α → Eval β} {why : Stop} (h : (m >>= f) s = .error why) :
    m s = .error why ∨ ∃ a t, m s = .ok (a, t) ∧ f a t = .error why := by
  change (m s).bind (fun p => f p.1 p.2) = _ at h
  cases first : m s with
  | error e =>
    rw [first] at h
    cases h
    exact .inl rfl
  | ok p =>
    rw [first] at h
    exact .inr ⟨p.1, p.2, rfl, h⟩

end Eval

/-- The expression stops with the failure, in one of the stores on the way. -/
def Expression.Stops (k : Nat) (x : Expression) (why : Stop) : Prop := ∃ s, x.eval k s = .error why

theorem Attribute.stops_of_evalFragments {fs : List Fragment} {why : Stop} (h : evalFragments fuel fs s = .error why) :
    ∃ x ∈ fs.filterMap Fragment.expression?, x.Stops fuel why := by
  induction fs generalizing s with
  | nil => cases h
  | cons f fs ih =>
    cases f with
    | literal t =>
      rcases Eval.of_bind_error h with first | ⟨_, _, _, ends⟩
      · exact ih first
      · cases ends
    | expression x =>
      rcases Eval.of_bind_error h with first | ⟨v, q, -, rest⟩
      · exact ⟨x, List.mem_cons_self, s, first⟩
      · rcases Eval.of_bind_error rest with later | ⟨_, _, _, ends⟩
        · obtain ⟨y, hy, stops⟩ := ih later
          exact ⟨y, List.mem_cons_of_mem _ hy, stops⟩
        · split at ends <;> cases ends

/-- Attributes can't be computed because one of their expressions can't. -/
theorem Attributes.stops_of_eval {as : Attributes} {why : Stop} (h : as.eval fuel s = .error why) :
    ∃ x ∈ as.flatMap Attribute.expressions, x.Stops fuel why := by
  induction as generalizing s with
  | nil => cases h
  | cons a as ih =>
    rcases Eval.of_bind_error h with first | ⟨_, q, -, rest⟩
    · unfold Attribute.eval at first
      split at first
      · cases first
      · rcases Eval.of_bind_error first with fragments | ⟨_, _, _, ends⟩
        · obtain ⟨x, hx, stops⟩ := Attribute.stops_of_evalFragments fragments
          exact ⟨x, List.mem_flatMap.2 ⟨a, List.mem_cons_self, hx⟩, stops⟩
        · cases ends
    · rcases Eval.of_bind_error rest with later | ⟨_, _, _, ends⟩
      · obtain ⟨x, hx, stops⟩ := ih later
        obtain ⟨b, hb, hx⟩ := List.mem_flatMap.1 hx
        exact ⟨x, List.mem_flatMap.2 ⟨b, List.mem_cons_of_mem _ hb, hx⟩, stops⟩
      · cases ends

/-! ## From two stores -/

namespace Eval

variable {α : Type} {k : Stock} {R : Store → Store → Prop} {Q : α → Prop} {m : Eval α}

/-- Both have failed alike, or both have given the same value, which has `Q`, and related stores. -/
inductive Twins (R : Store → Store → Prop) (Q : α → Prop) :
    Except Stop (α × Store) → Except Stop (α × Store) → Prop
  | error (why : Stop) : Twins R Q (.error why) (.error why)
  | ok {a : α} {s s' : Store} (related : R s s') (value : Q a) : Twins R Q (.ok (a, s)) (.ok (a, s'))

/-- A relation that evaluation can't break can't be broken the other way round. -/
theorem Allows.flip (allows : Allows k R) : Allows k (flip R) where
  context := by
    intro s s' r
    obtain ⟨same, made⟩ := allows.context r
    exact ⟨same.symm, same ▸ made⟩
  host := fun r => (allows.host r).symm
  counter := by
    intro s s' r
    obtain ⟨same, related⟩ := allows.counter r
    exact ⟨same.symm, related⟩
  builtin := allows.builtin
  template := by
    intro s s' f signature body frame r hf kind hframe
    obtain ⟨same, inStock, related⟩ := allows.template r hf kind hframe
    exact ⟨same.symm, same ▸ inStock, related⟩
  select := by
    intro s s' f matched path r hf kind
    obtain ⟨same, inStock, related⟩ := allows.select r hf kind
    exact ⟨same.symm, same ▸ inStock, related⟩

theorem Simulates.twins (h : Simulates R m m Q) (h' : Simulates (flip R) m m Q) {s s' : Store} (r : R s s') :
    Twins R Q (m s) (m s') := by
  have there := h s s' r
  have back := h' s' s r
  generalize m s = x, m s' = y at there back
  cases there with
  | outOfFuel =>
    -- the other computation lacks fuel too, as this one gives nothing that it could come to
    cases back with
    | outOfFuel => exact .error _
    | error => exact .error _
  | error => exact .error _
  | ok related value => exact .ok related value

end Eval

variable {k : Stock} {R : Store → Store → Prop}

theorem Expression.eval_twins (fuel : Nat) (allows : Allows k R) (e : Expression) (r : R s s') :
    Twins R (Value.From k) (e.eval fuel s) (e.eval fuel s') :=
  (e.eval_simulates allows (Nat.le_refl _)).twins (e.eval_simulates allows.flip (Nat.le_refl _)) r

theorem Attributes.eval_twins (fuel : Nat) (allows : Allows k R) (as : Attributes) (r : R s s') :
    Twins R (fun _ => True) (as.eval fuel s) (as.eval fuel s') :=
  (as.eval_simulates allows (Nat.le_refl _)).twins (as.eval_simulates allows.flip (Nat.le_refl _)) r

end Stencil
