import Stencil.Proofs.Stream.Lag

/-!
# Runs from a store and from one that is ahead of it

Whatever a stream comes to next, after the steps that are skipped, is the same from both stores
(`Stream.comes_behind`, `Stream.comes_ahead`). With the store in the place of both, the step lemma says
that a stream and a store that are faithful stay so (`Stream.Reaches.kept`).
-/

namespace Stencil

variable {known : Known} {bodies : List (BodyId × List Event)} {k : Nat} {u v w : Stream} {s r t : Store}
  {e : Event} {es : List Event} {a b : Advance}

open Store Advance

namespace Stream

/-! ## What a stream comes to next -/

/-- The first step that is not skipped. -/
structure Comes (k : Nat) (u : Stream) (s : Store) (a : Advance) : Prop where
  shows : ∀ v r, a ≠ .skip v r
  run : ∃ v r, Run k u s [] v r ∧ step k v r = a

theorem Comes.after (before : Run k u s [] v r) (h : Comes k v r a) : Comes k u s a := by
  obtain ⟨w, t, run, last⟩ := h.run
  exact ⟨h.shows, w, t, before.trans run, last⟩

/-- Steps that are skipped do not change what comes next. -/
theorem Comes.behind (before : Run k u s [] v r) (h : Comes k u s a) : Comes k v r a := by
  obtain ⟨shows, w, t, run, last⟩ := h
  generalize none : ([] : List Event) = es at before
  induction before with
  | refl => exact ⟨shows, w, t, run, last⟩
  | skip first _ ih =>
    cases run with
    | refl =>
      rw [first] at last
      exact absurd last.symm (shows _ _)
    | skip first' rest =>
      rw [first] at first'
      cases first'
      exact ih rest none
  | yield => cases none

/-- A run with an event comes to the event. -/
theorem Run.comes (h : Run k u s (e :: es) w t) : ∃ v r, Comes k u s (.yield e v r) ∧ Run k v r es w t := by
  obtain ⟨u', s', v, r, before, yields, rest⟩ := h.head
  exact ⟨v, r, ⟨by simp, u', s', before, yields⟩, rest⟩

/-- A run without events comes to its last step. -/
theorem Completes.comes {stop? : Option Stop} (h : Completes k u s [] stop? v r) : Comes k u s (final stop? v r) := by
  refine ⟨?_, h⟩
  intro v r
  cases stop? <;> simp [final]

/-! ## Bodies that are there in time -/

/-- On every run, a body that is known is only replayed once it has been captured. -/
def Ready (known : Known) (k : Nat) (u : Stream) (s : Store) : Prop :=
  ∀ es v r, Run k u s es v r → ∀ b ∈ v.expanding? r, known b ≠ none → r.full b

theorem Ready.run (h : Ready known k u s) (before : Run k u s es v r) : Ready known k v r :=
  fun _ w t next => h _ w t (before.trans next)

/-- Both stores replay the same. -/
theorem Ready.agree (h : Ready known k u s) (ahead : Ahead known bodies s) :
    ∀ b ∈ u.expanding? s, (s.withBodies bodies).body b = s.body b :=
  fun b hb => ahead.body (h [] u s (.refl u s) b hb)

/-- The step lemma for a stream whose bodies are there in time. -/
theorem Ready.keeps (h : Ready known k u s) (stream : u.Faithful known s.full) (ahead : Ahead known bodies s) :
    Keeps known k bodies u s := step_keeps stream ahead (h.agree ahead)

/-- Tests all states of a run, which has to come to an end within the given number of steps. -/
def everyState (test : Stream → Store → Bool) (k : Nat) : Nat → Stream → Store → Bool
  | 0, _, _ => false
  | n + 1, u, s => test u s && match step k u s with
    | .yield _ v r | .skip v r => everyState test k n v r
    | .done .. | .fail (.fault _) .. => true
    | .fail .outOfFuel .. => false

/-- A run that comes to an end with some fuel goes through the same states with any other. -/
theorem test_of_everyState {test : Stream → Store → Bool} {k n : Nat} (h : everyState test k n u s = true) {k' : Nat}
    (run : Run k' u s es v r) : test v r = true := by
  have larger := run.of_le (Nat.le_max_left k' k)
  have le := Nat.le_max_right k' k
  generalize max k' k = m at larger le
  clear run
  induction n generalizing u s es with
  | zero => cases h
  | succ n ih =>
    obtain ⟨here, rest⟩ := Bool.and_eq_true_iff.1 h
    cases larger with
    | refl => exact here
    | skip first after | yield first after =>
      rcases step_upTo le u s with ⟨_, _, lacks⟩ | same
      · rw [lacks] at rest
        cases rest
      · rw [← same, first] at rest
        exact ih rest after

/-! ## The same from both stores -/

theorem Run.leads (h : Leads k u s v r) : Run k u s [] v r := by
  obtain ⟨w, q, first, rest⟩ := h
  exact .skip first rest

/-- A run from the store that is ahead is one from the other store. -/
theorem comes_behind (ready : Ready known k u s) (stream : u.Faithful known s.full) (ahead : Ahead known bodies s)
    (h : Comes k u (s.withBodies bodies) a) : ∃ b full, Comes k u s b ∧ Matched known full a b := by
  obtain ⟨shows, w, q, run, last⟩ := h
  generalize start : s.withBodies bodies = s', none : ([] : List Event) = es at run
  induction run generalizing s bodies with
  | refl u =>
    subst start
    rcases ready.keeps stream ahead with same | ⟨-, bodies', v, r, first, -, -⟩
    · rw [last] at same
      refine ⟨step k u s, s.full, ⟨?_, u, s, .refl u s, rfl⟩, same⟩
      intro v r skips
      rw [skips] at same
      cases same
      exact shows _ _ rfl
    · rw [last] at first
      exact absurd first (shows _ _)
  | @skip u v _ _ q _ _ first _ ih =>
    subst start
    rcases ready.keeps stream ahead with same | ⟨-, bodies', v', r, first', leads, after⟩
    · rw [first] at same
      generalize next : step k u s = b at same
      cases same with
      | skip after =>
        obtain ⟨b, full, comes, matched⟩ := ih (ready.run (.silent next)) after.stream after.ahead last rfl none
        exact ⟨b, full, comes.after (.silent next), matched⟩
    · rw [first] at first'
      cases first'
      have before := Run.leads leads
      obtain ⟨b, full, comes, matched⟩ := ih (ready.run before) after.stream after.ahead last rfl none
      exact ⟨b, full, comes.after before, matched⟩
  | yield => cases none

/-- What one store comes to, the store that is ahead comes to as well. It may have got to a later state of
the same run already. -/
theorem comes_ahead (ready : Ready known k u s) (h : Comes k u s b) (before : Run k u s [] v r)
    (stream : v.Faithful known r.full) (ahead : Ahead known bodies r) :
    ∃ a full, Comes k v (r.withBodies bodies) a ∧ Matched known full a b := by
  obtain ⟨shows, w, t, run, last⟩ := h
  generalize none : ([] : List Event) = es at run
  induction run generalizing v r bodies with
  | refl u s =>
    generalize none : ([] : List Event) = es at before
    cases before with
    | refl =>
      rcases ready.keeps stream ahead with same | ⟨-, -, v, r, -, ⟨w, q, second, -⟩, -⟩
      · rw [last] at same
        refine ⟨step k u (s.withBodies bodies), s.full, ⟨?_, u, _, .refl _ _, rfl⟩, same⟩
        intro v r skips
        rw [skips] at same
        cases same
        exact shows _ _ rfl
      · rw [last] at second
        exact absurd second (shows _ _)
    | skip first =>
      rw [last] at first
      exact absurd first (shows _ _)
    | yield => cases none
  | @skip u u' _ s s' _ _ first _ ih =>
    have later := ready.run (.silent first)
    generalize same : ([] : List Event) = es at before
    cases before with
    | refl =>
      rcases ready.keeps stream ahead with matched | ⟨-, bodies', v, r, next, ⟨w, q, second, rest⟩, after⟩
      · rw [first] at matched
        generalize next : step k u (s.withBodies bodies) = a at matched
        cases matched with
        | skip after =>
          obtain ⟨a, full, comes, matched⟩ := ih later (.refl _ _) after.stream after.ahead last none
          exact ⟨a, full, comes.after (.silent next), matched⟩
      · rw [first] at second
        cases second
        obtain ⟨a, full, comes, matched⟩ := ih later rest after.stream after.ahead last none
        exact ⟨a, full, comes.after (.silent next), matched⟩
    | skip first' rest =>
      rw [first] at first'
      cases first'
      subst same
      exact ih later rest stream ahead last none
    | yield => cases same
  | yield => cases none

/-! ## The same from one store -/

/-- What a stream and a store are that were faithful, with something captured. -/
structure Kept (known : Known) (full : BodyId → Prop) (u : Stream) (s : Store) : Prop where
  stream : u.Faithful known s.full
  store : s.Faithful known
  grown : ∀ b, full b → s.full b

theorem After.kept {full : BodyId → Prop} (h : After known full bodies v r) : Kept known full v (r.withBodies bodies) :=
  ⟨h.stream.mono fun _ => h.ahead.full, h.ahead.left, fun b isFull => h.ahead.full (h.grown b isFull)⟩

theorem kept_of_matched {full : BodyId → Prop} (h : Matched known full a b) : Kept known full a.stream a.store := by
  cases h with
  | yield _ after | skip after | done after | fail after => exact after.kept

/-- What is faithful stays so with every step, and what is captured stays there. -/
theorem kept_step (k : Nat) (stream : u.Faithful known s.full) (faithful : s.Faithful known) :
    Kept known s.full (step k u s).stream (step k u s).store := by
  rcases step_keeps (k := k) stream (.refl faithful) fun _ _ => rfl with same | ⟨-, bodies', v, r, first, -, after⟩
  · exact kept_of_matched same
  · change step k u s = _ at first
    rw [first]
    exact after.kept

/-- Steps keep all that they have been found to keep one by one. -/
theorem Reaches.kept (h : Reaches u s v r) (stream : u.Faithful known s.full) (faithful : s.Faithful known) :
    Kept known s.full v r := by
  induction h with
  | start => exact ⟨stream, faithful, fun _ h => h⟩
  | step _ fuel ih =>
    have next := kept_step fuel ih.stream ih.store
    exact ⟨next.stream, next.store, fun b isFull => next.grown b (ih.grown b isFull)⟩

end Stream

end Stencil
