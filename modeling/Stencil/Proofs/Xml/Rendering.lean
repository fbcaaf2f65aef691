import Stencil.Proofs.Stream.Together
import Stencil.Xml.Writer

/-!
# What a rendering comes to

Rendering pulls events and writes each of them at once, so it stops at the first event that can't be
written. `Xml.Renders` says what it comes to without counting steps, and rendering with enough fuel comes
to that (`Xml.render_of_renders`).
-/

open Stencil.Stream Stencil.Advance

namespace Stencil.Xml

/-- The text, or why there is none. -/
def Rendering.outcome (r : Rendering) : Except Stop Text :=
  match r.stop? with
  | none => .ok r.text
  | some why => .error why

/-- What is left to be written when there are no more events. -/
def Writer.ending (w : Writer) : Except Stop Text :=
  match w.finish.fault? with
  | none => .ok w.finish.text
  | some f => .error (.fault f)

/-- The text that is still to be written for a stream, or why there is none. -/
inductive Renders (k : Nat) : Writer → Stream → Store → Except Stop Text → Prop
  | write {w : Writer} {u v : Stream} {s r : Store} {e : Event} {o : Except Stop Text}
      (next : Comes k u s (.yield e v r)) (fine : (w.feed e).fault? = none) (rest : Renders k (w.feed e).writer v r o) :
      Renders k w u s (o.map ((w.feed e).text ++ ·))
  | unwritable {w : Writer} {u v : Stream} {s r : Store} {e : Event} {f : Fault} (next : Comes k u s (.yield e v r))
      (fault : (w.feed e).fault? = some f) : Renders k w u s (.error (.fault f))
  | done {w : Writer} {u v : Stream} {s r : Store} (next : Comes k u s (.done v r)) : Renders k w u s w.ending
  | fail {w : Writer} {u v : Stream} {s r : Store} {why : Stop} (next : Comes k u s (.fail why v r)) :
      Renders k w u s (.error why)

variable {k : Nat} {w : Writer} {u v : Stream} {s r : Store} {o : Except Stop Text} {pieces : List Text}

theorem Renders.after (before : Run k u s [] v r) (h : Renders k w v r o) : Renders k w u s o := by
  cases h with
  | write next fine rest => exact .write (next.after before) fine rest
  | unwritable next fault => exact .unwritable (next.after before) fault
  | done next => exact .done (next.after before)
  | fail next => exact .fail (next.after before)

/-! ## Rendering with fuel -/

theorem pull_of_comes {a : Advance} (h : Comes k u s a) (enough : ¬ a.Lacks) :
    ∃ p, pulledAt a = some p ∧ ∃ n, ∀ fuel, n ≤ fuel → pull fuel u s = p := by
  obtain ⟨shows, v, r, run, rfl⟩ := h
  obtain ⟨p, pulled⟩ : ∃ p, pulledAt (step k v r) = some p := by
    generalize step k v r = a at shows
    cases a with
    | skip => exact absurd rfl (shows _ _)
    | _ => exact ⟨_, rfl⟩
  exact ⟨p, pulled, pull_of_run run pulled enough⟩

/-- **Rendering with enough fuel comes to what is said.** -/
theorem renderFrom_of_renders (h : Renders k w u s o) (enough : o ≠ .error .outOfFuel) (pieces : List Text) :
    ∃ n, ∀ fuel, n ≤ fuel → (renderFrom pieces fuel w u s).outcome = o.map (pieces.reverse.flatten ++ ·) := by
  induction h generalizing pieces with
  | @write w u v s r e o next fine rest ih =>
    obtain ⟨_, ⟨⟩, n, pulls⟩ := pull_of_comes next (by rintro ⟨_, _, fails⟩; cases fails)
    have other : o ≠ .error .outOfFuel := by
      rintro rfl
      exact enough rfl
    obtain ⟨m, renders⟩ := ih other ((w.feed e).text :: pieces)
    refine ⟨max n m + 1, fun fuel large => ?_⟩
    obtain ⟨fuel, rfl⟩ : ∃ n, fuel = n + 1 := ⟨fuel - 1, by omega⟩
    rw [renderFrom, pulls fuel (by omega)]
    simp only [fine]
    rw [renders fuel (by omega)]
    cases o <;> simp [Except.map]
  | @unwritable w u v s r e f next fault =>
    obtain ⟨_, ⟨⟩, n, pulls⟩ := pull_of_comes next (by rintro ⟨_, _, fails⟩; cases fails)
    refine ⟨n + 1, fun fuel large => ?_⟩
    obtain ⟨fuel, rfl⟩ : ∃ n, fuel = n + 1 := ⟨fuel - 1, by omega⟩
    rw [renderFrom, pulls fuel (by omega)]
    simp only [fault]
    rfl
  | @done w u v s r next =>
    obtain ⟨_, ⟨⟩, n, pulls⟩ := pull_of_comes next (by rintro ⟨_, _, fails⟩; cases fails)
    refine ⟨n + 1, fun fuel large => ?_⟩
    obtain ⟨fuel, rfl⟩ : ∃ n, fuel = n + 1 := ⟨fuel - 1, by omega⟩
    rw [renderFrom, pulls fuel (by omega)]
    simp only [Writer.ending, Rendering.outcome]
    cases w.finish.fault? <;> simp [Except.map]
  | @fail w u v s r why next =>
    have fueled : ¬ (Advance.fail why v r).Lacks := by
      rintro ⟨_, _, fails⟩
      cases fails
      exact enough rfl
    obtain ⟨_, ⟨⟩, n, pulls⟩ := pull_of_comes next fueled
    refine ⟨n + 1, fun fuel large => ?_⟩
    obtain ⟨fuel, rfl⟩ : ∃ n, fuel = n + 1 := ⟨fuel - 1, by omega⟩
    rw [renderFrom, pulls fuel (by omega)]
    rfl

/-- **What rendering comes to is said**, unless it lacks fuel. -/
theorem renders_of_renderFrom {fuel : Nat} (le : fuel ≤ k) (pieces : List Text)
    (enough : (renderFrom pieces fuel w u s).outcome ≠ .error .outOfFuel) :
    ∃ o, Renders k w u s o ∧ (renderFrom pieces fuel w u s).outcome = o.map (pieces.reverse.flatten ++ ·) := by
  induction fuel generalizing w u s pieces with
  | zero => exact absurd rfl enough
  | succ fuel ih =>
    have run := run_of_pull (u := u) (s := s) (show fuel ≤ k by omega)
    rw [renderFrom] at enough ⊢
    cases p : pull fuel u s with
    | event e v r =>
      rw [p] at run enough
      obtain ⟨v', r', next, silent⟩ := Run.comes run
      cases fault : (w.feed e).fault? with
      | none =>
        simp only [fault] at enough ⊢
        obtain ⟨o, renders, same⟩ := ih (by omega) _ enough
        refine ⟨_, .write next fault (renders.after silent), ?_⟩
        rw [same]
        cases o <;> simp [Except.map]
      | some f =>
        simp only [fault]
        exact ⟨_, .unwritable next fault, rfl⟩
    | ended v r =>
      rw [p] at run
      refine ⟨_, .done (Completes.comes run), ?_⟩
      simp only [Writer.ending, Rendering.outcome]
      cases w.finish.fault? <;> simp [Except.map]
    | stopped why v r =>
      rw [p] at run enough
      have other : why ≠ .outOfFuel := by
        rintro rfl
        exact enough rfl
      exact ⟨_, .fail (Completes.comes (run other)), rfl⟩

/-- More fuel does not change what is rendered. -/
theorem outcome_stays {fuel : Nat} (enough : (render fuel w u s).outcome ≠ .error .outOfFuel) :
    ∃ n, ∀ more, n ≤ more → (render more w u s).outcome = (render fuel w u s).outcome := by
  obtain ⟨o, renders, same⟩ := renders_of_renderFrom (Nat.le_refl fuel) [] enough
  have other : o ≠ .error .outOfFuel := by
    rintro rfl
    exact enough same
  obtain ⟨n, comes⟩ := renderFrom_of_renders renders other []
  exact ⟨n, fun more large => (comes more large).trans same.symm⟩

/-- Two streams that render the same do so with enough fuel. -/
theorem outcome_congr {u' : Stream} {s' : Store} (same : ∀ k o, Renders k w u s o ↔ Renders k w u' s' o) :
    ∃ n, ∀ fuel, n ≤ fuel → (render fuel w u s).outcome = (render fuel w u' s').outcome := by
  by_cases comes : ∃ k o, Renders k w u s o ∧ o ≠ .error .outOfFuel
  · obtain ⟨k, o, renders, enough⟩ := comes
    obtain ⟨n, first⟩ := renderFrom_of_renders renders enough []
    obtain ⟨m, second⟩ := renderFrom_of_renders ((same k o).1 renders) enough []
    refine ⟨max n m, fun fuel large => ?_⟩
    exact (first fuel (by omega)).trans (second fuel (by omega)).symm
  · -- Neither of them comes to anything, so both lack fuel however much there is.
    have lacks : ∀ {u s}, (∀ k o, Renders k w u s o → o = .error .outOfFuel) → ∀ fuel,
        (render fuel w u s).outcome = .error .outOfFuel := by
      intro u s nothing fuel
      by_contra other
      obtain ⟨o, renders, same⟩ := renders_of_renderFrom (Nat.le_refl fuel) [] other
      obtain rfl := nothing _ _ renders
      exact other same
    have first : ∀ k o, Renders k w u s o → o = .error .outOfFuel := fun k o renders =>
      by_contra fun enough => comes ⟨k, o, renders, enough⟩
    refine ⟨0, fun fuel _ => ?_⟩
    rw [lacks first fuel, lacks fun k o renders => first k o ((same k o).2 renders)]

/-! ## Rendering from a store and from one that is ahead of it -/

variable {known : Known} {bodies : List (BodyId × List Event)}

theorem renders_behind (ready : Ready known k u s) (stream : u.Faithful known s.full) (ahead : Store.Ahead known bodies s)
    (h : Renders k w u (s.withBodies bodies) o) : Renders k w u s o := by
  generalize start : s.withBodies bodies = s' at h
  induction h generalizing s bodies with
  | write next fine rest ih =>
    subst start
    obtain ⟨b, full, comes, matched⟩ := comes_behind ready stream ahead next
    cases matched with
    | yield event after =>
      obtain ⟨v, r, run, last⟩ := comes.run
      have there := ready.run (run.trans (.single last))
      exact .write comes fine (ih there after.stream after.ahead rfl)
  | unwritable next fault =>
    subst start
    obtain ⟨b, full, comes, matched⟩ := comes_behind ready stream ahead next
    cases matched with
    | yield event after => exact .unwritable comes fault
  | done next =>
    subst start
    obtain ⟨b, full, comes, matched⟩ := comes_behind ready stream ahead next
    cases matched with
    | done after => exact .done comes
  | fail next =>
    subst start
    obtain ⟨b, full, comes, matched⟩ := comes_behind ready stream ahead next
    cases matched with
    | fail after => exact .fail comes

theorem renders_ahead (ready : Ready known k u s) (stream : u.Faithful known s.full) (ahead : Store.Ahead known bodies s)
    (h : Renders k w u s o) : Renders k w u (s.withBodies bodies) o := by
  induction h generalizing bodies with
  | @write w u _ s _ _ _ next fine rest ih =>
    obtain ⟨a, full, comes, matched⟩ := comes_ahead ready next (.refl u s) stream ahead
    cases matched with
    | yield event after =>
      obtain ⟨v, r, run, last⟩ := next.run
      have there := ready.run (run.trans (.single last))
      exact .write comes fine (ih there after.stream after.ahead)
  | @unwritable w u _ s _ _ _ next fault =>
    obtain ⟨a, full, comes, matched⟩ := comes_ahead ready next (.refl u s) stream ahead
    cases matched with
    | yield event after => exact .unwritable comes fault
  | @done w u _ s _ next =>
    obtain ⟨a, full, comes, matched⟩ := comes_ahead ready next (.refl u s) stream ahead
    cases matched with
    | done after => exact .done comes
  | @fail w u _ s _ _ next =>
    obtain ⟨a, full, comes, matched⟩ := comes_ahead ready next (.refl u s) stream ahead
    cases matched with
    | fail after => exact .fail comes

/-- **The same is rendered from both stores**, if each body that is known is captured before it is
replayed. -/
theorem outcome_withBodies (ready : ∀ k, Ready known k u s) (stream : u.Faithful known s.full)
    (ahead : Store.Ahead known bodies s) :
    ∃ n, ∀ fuel, n ≤ fuel → (render fuel w u (s.withBodies bodies)).outcome = (render fuel w u s).outcome :=
  outcome_congr fun k _ => ⟨renders_behind (ready k) stream ahead, renders_ahead (ready k) stream ahead⟩

end Stencil.Xml
