import Stencil.Proofs.Stream.Fuel
import Stencil.Stream.Pull

/-!
# Runs of a stream

Pulling makes steps with less and less fuel. A run makes all of its steps with the same fuel for their
expressions, and may be as long as it likes (`Stream.Run`). What pulling all events comes to is what a
run comes to (`Stream.completes_of_collect`), and pulling with enough fuel comes to it
(`Stream.collect_of_completes`).
-/

namespace Stencil

namespace Stream

/-- Steps with fuel `k` for their expressions lead from one state to another and yield events. -/
inductive Run (k : Nat) : Stream → Store → List Event → Stream → Store → Prop
  | refl (u : Stream) (s : Store) : Run k u s [] u s
  | skip {u v w : Stream} {s t r : Store} {es : List Event} (first : step k u s = .skip v t)
      (rest : Run k v t es w r) : Run k u s es w r
  | yield {u v w : Stream} {s t r : Store} {e : Event} {es : List Event} (first : step k u s = .yield e v t)
      (rest : Run k v t es w r) : Run k u s (e :: es) w r

/-- The last step of a run: the end of the stream, or a failure. -/
def final (stop? : Option Stop) (u : Stream) (s : Store) : Advance :=
  match stop? with
  | none => .done u s
  | some why => .fail why u s

/-- A run yields the events, then the stream ends or fails. -/
def Completes (k : Nat) (u : Stream) (s : Store) (es : List Event) (stop? : Option Stop) (w : Stream) (r : Store) :
    Prop :=
  ∃ v t, Run k u s es v t ∧ step k v t = final stop? w r

variable {k k' : Nat} {u v w : Stream} {s t r : Store} {es fs : List Event}

theorem Run.trans (h : Run k u s es v t) (h' : Run k v t fs w r) : Run k u s (es ++ fs) w r := by
  induction h with
  | refl => exact h'
  | skip first _ ih => exact .skip first (ih h')
  | yield first _ ih => exact .yield first (ih h')

/-- A step without an event. -/
theorem Run.silent (first : step k u s = .skip v t) : Run k u s [] v t := .skip first (.refl v t)

/-- A step with an event. -/
theorem Run.single {e : Event} (first : step k u s = .yield e v t) : Run k u s [e] v t := .yield first (.refl v t)

/-- A stream that hands on the skipped steps of another one. -/
theorem Run.lift (wrap : Stream → Stream)
    (skips : ∀ {u v : Stream} {s t : Store}, step k u s = .skip v t → step k (wrap u) s = .skip (wrap v) t)
    (h : Run k u s [] v t) : Run k (wrap u) s [] (wrap v) t := by
  generalize none : ([] : List Event) = es at h
  induction h with
  | refl => exact .refl _ _
  | skip first _ ih => exact .skip (skips first) (ih none)
  | yield => cases none

/-- Streams that read another one and hand on its skipped steps. -/
inductive HandsOn : (Stream → Stream) → Prop
  | append (rest : Stream) : HandsOn (.append · rest)
  | gathering (targets : List Text) (items : List Value) (body : List Event) : HandsOn (.gathering targets items body)
  | attributes (x : Expression) : HandsOn (.attributes x)
  | start (x : Expression) : HandsOn (.content x .start)
  | last (x : Expression) (latest? : Option Event) : HandsOn (.content x (.last latest?))
  | replaced (x : Expression) : HandsOn (.replaced x)
  | strip (test : Option Expression) (phase : StripPhase) (tested : phase ≠ .untested) : HandsOn (.strip test phase)
  | evaluated : HandsOn .evaluated
  | tidied (text? : Option (Position × Text)) : HandsOn (.tidied none text?)
  | substituted (path : Path) (body : BodyId) (openElements : List Event) : HandsOn (.substituted path body openElements)
  | matching (path : Path) (body : BodyId) (openElements : List Event) (p : Position) (depth : Nat) (matched : List Event) :
      HandsOn (.matching path body openElements p depth matched)
  | included (filename : Text) (prefixes : List Text) : HandsOn (.included filename prefixes)
  | including (filename : Text) (prefixes : List Text) (i : Inclusion) : HandsOn (.including filename prefixes i)
  | inserting (filename : Text) (prefixes : List Text) (indentation : Nat) (outer : Stream) :
      HandsOn (.inserting filename prefixes indentation · outer)
  | expanded (t : Template) (last : Position) : HandsOn (.expanded t last)

theorem HandsOn.skip {wrap : Stream → Stream} (h : HandsOn wrap) (skips : step k u s = .skip v t) :
    step k (wrap u) s = .skip (wrap v) t := by
  cases h with
  | strip test phase tested =>
    cases phase with
    | untested => exact absurd rfl tested
    | _ => simp only [step, skips]; rfl
  | gathering | attributes | replaced => simp only [step, skips]
  | _ => simp only [step, skips]; rfl

theorem Run.through {wrap : Stream → Stream} (h : Run k u s [] v t) (handsOn : HandsOn wrap) :
    Run k (wrap u) s [] (wrap v) t := h.lift wrap handsOn.skip

/-- A run with an event goes up to the event without one. -/
theorem Run.head {e : Event} (h : Run k u s (e :: es) w r) :
    ∃ u' s' v t, Run k u s [] u' s' ∧ step k u' s' = .yield e v t ∧ Run k v t es w r := by
  generalize some : e :: es = fs at h
  induction h with
  | refl => cases some
  | skip first _ ih =>
    obtain ⟨u', s', v, t, before, yields, after⟩ := ih some
    exact ⟨u', s', v, t, .skip first before, yields, after⟩
  | yield first rest =>
    cases some
    exact ⟨_, _, _, _, .refl _ _, first, rest⟩

theorem Run.of_le (le : k ≤ k') (h : Run k u s es v t) : Run k' u s es v t := by
  have same {u : Stream} {s : Store} {a : Advance} (r : step k u s = a) (enough : ¬ a.Lacks) : step k' u s = a :=
    ((step_upTo le u s).resolve_left (r ▸ enough)).trans r
  induction h with
  | refl => exact .refl _ _
  | skip first _ ih =>
    refine .skip (same first ?_) ih
    rintro ⟨u, s, fails⟩
    cases fails
  | yield first _ ih =>
    refine .yield (same first ?_) ih
    rintro ⟨u, s, fails⟩
    cases fails

theorem final_lacks {stop? : Option Stop} (h : (final stop? w r).Lacks) : stop? = some .outOfFuel := by
  obtain ⟨v, t, fails⟩ := h
  cases stop? <;> cases fails
  rfl

theorem step_final_of_le {stop? : Option Stop} (le : k ≤ k') (enough : stop? ≠ some .outOfFuel)
    (h : step k u s = final stop? w r) : step k' u s = final stop? w r :=
  ((step_upTo le u s).resolve_left fun lacks => enough (final_lacks (h ▸ lacks))).trans h

theorem Completes.after {stop? : Option Stop} (before : Run k u s es v t) (h : Completes k v t fs stop? w r) :
    Completes k u s (es ++ fs) stop? w r := by
  obtain ⟨v', t', run, last⟩ := h
  exact ⟨v', t', before.trans run, last⟩

/-- More fuel does not change what a run comes to. -/
theorem Completes.of_le {stop? : Option Stop} (le : k ≤ k') (enough : stop? ≠ some .outOfFuel)
    (h : Completes k u s es stop? w r) : Completes k' u s es stop? w r := by
  obtain ⟨v, t, run, last⟩ := h
  exact ⟨v, t, run.of_le le, step_final_of_le le enough last⟩

theorem final_inj {a b : Option Stop} (h : final a u s = final b v t) : a = b ∧ u = v ∧ s = t := by
  cases a <;> cases b <;> cases h <;> exact ⟨rfl, rfl, rfl⟩

/-- A run comes to one thing only. -/
theorem Completes.unique {a b : Option Stop} {u' : Stream} {s' : Store} (h : Completes k u s es a w r)
    (h' : Completes k u s fs b u' s') : es = fs ∧ a = b ∧ w = u' ∧ r = s' := by
  obtain ⟨v, t, run, last⟩ := h
  obtain ⟨v', t', run', last'⟩ := h'
  have ends {stop? : Option Stop} {u w : Stream} {s r : Store} (last : step k u s = final stop? w r) :
      (∀ v t, step k u s ≠ .skip v t) ∧ ∀ e v t, step k u s ≠ .yield e v t := by
    rw [last]
    cases stop? <;> simp [final]
  induction run generalizing fs with
  | refl =>
    cases run' with
    | refl => exact ⟨rfl, final_inj (last ▸ last')⟩
    | skip first => exact absurd first ((ends last).1 _ _)
    | yield first => exact absurd first ((ends last).2 _ _ _)
  | skip first _ ih =>
    cases run' with
    | refl => exact absurd first ((ends last').1 _ _)
    | skip first' rest' =>
      rw [first] at first'
      cases first'
      exact ih last rest'
    | yield first' =>
      rw [first] at first'
      cases first'
  | yield first _ ih =>
    cases run' with
    | refl => exact absurd first ((ends last').2 _ _ _)
    | skip first' =>
      rw [first] at first'
      cases first'
    | yield first' rest' =>
      rw [first] at first'
      cases first'
      obtain ⟨rfl, same⟩ := ih last rest'
      exact ⟨rfl, same⟩

/-! ## Pulling -/

/-- What pulling comes to at a step that is not skipped. -/
def pulledAt : Advance → Option Pulled
  | .yield e u s => some (.event e u s)
  | .skip _ _ => none
  | .done u s => some (.ended u s)
  | .fail why u s => some (.stopped why u s)

/-- Skipped steps are made by pulling, if there is enough fuel. -/
theorem pull_of_run {p : Pulled} (h : Run k u s [] v t) (last : pulledAt (step k v t) = some p)
    (enough : ¬ (step k v t).Lacks) : ∃ n, ∀ fuel, n ≤ fuel → pull fuel u s = p := by
  generalize none : ([] : List Event) = es at h
  induction h with
  | refl v t =>
    refine ⟨k + 1, fun fuel large => ?_⟩
    obtain ⟨fuel, rfl⟩ : ∃ n, fuel = n + 1 := ⟨fuel - 1, by omega⟩
    have same : step fuel v t = step k v t := (step_upTo (by omega) v t).resolve_left enough
    rw [pull, same]
    cases a : step k v t <;> rw [a] at last <;> cases last <;> rfl
  | @skip u v' _ s t' _ _ first _ ih =>
    obtain ⟨n, ih⟩ := ih last enough none
    refine ⟨max k n + 1, fun fuel large => ?_⟩
    obtain ⟨fuel, rfl⟩ : ∃ n, fuel = n + 1 := ⟨fuel - 1, by omega⟩
    have same : step fuel u s = step k u s := by
      refine (step_upTo (by omega) u s).resolve_left ?_
      rintro ⟨_, _, fails⟩
      rw [first] at fails
      cases fails
    rw [pull, same, first]
    exact ih fuel (by omega)
  | yield => cases none

/-- What a run comes to is what pulling comes to, if there is enough fuel. -/
theorem collectFrom_of_completes {stop? : Option Stop} (enough : stop? ≠ some .outOfFuel)
    (h : Completes k u s es stop? w r) (acc : List Event) :
    ∃ n, ∀ fuel, n ≤ fuel → collectFrom acc fuel none u s = ⟨acc.reverse ++ es, stop?, w, r⟩ := by
  obtain ⟨v, t, run, last⟩ := h
  induction es generalizing u s acc with
  | nil =>
    have lacks : ¬ (step k v t).Lacks := fun h => enough (final_lacks (last ▸ h))
    obtain ⟨p, pulled⟩ : ∃ p, pulledAt (step k v t) = some p := by
      rw [last]
      cases stop? <;> exact ⟨_, rfl⟩
    obtain ⟨n, pulls⟩ := pull_of_run run pulled lacks
    refine ⟨n + 1, fun fuel large => ?_⟩
    obtain ⟨fuel, rfl⟩ : ∃ n, fuel = n + 1 := ⟨fuel - 1, by omega⟩
    rw [collectFrom, pulls fuel (by omega)]
    · rw [last] at pulled
      cases stop? <;> cases pulled <;> simp
    · simp
  | cons e es ih =>
    obtain ⟨u', s', v', t', before, yields, after⟩ := run.head
    obtain ⟨n, pulls⟩ := pull_of_run (p := .event e v' t') before (by rw [yields]; rfl) (by
      rintro ⟨_, _, fails⟩
      rw [yields] at fails
      cases fails)
    obtain ⟨m, collects⟩ := ih (e :: acc) after
    refine ⟨max n m + 1, fun fuel large => ?_⟩
    obtain ⟨fuel, rfl⟩ : ∃ n, fuel = n + 1 := ⟨fuel - 1, by omega⟩
    rw [collectFrom, pulls fuel (by omega)]
    · simpa using collects fuel (by omega)
    · simp

/-- **Pulling with enough fuel comes to what a run comes to.** -/
theorem collect_of_completes {stop? : Option Stop} (enough : stop? ≠ some .outOfFuel)
    (h : Completes k u s es stop? w r) : ∃ n, ∀ fuel, n ≤ fuel → collect fuel none u s = ⟨es, stop?, w, r⟩ :=
  collectFrom_of_completes enough h []

/-- Pulling up to the next event makes a run. -/
theorem run_of_pull {fuel : Nat} (le : fuel ≤ k) :
    match pull fuel u s with
    | .event e w r => Run k u s [e] w r
    | .ended w r => Completes k u s [] none w r
    | .stopped why w r => why ≠ .outOfFuel → Completes k u s [] (some why) w r := by
  induction fuel generalizing u s with
  | zero => exact fun enough => absurd rfl enough
  | succ fuel ih =>
    rw [pull]
    have same : ∀ a, step fuel u s = a → ¬ a.Lacks → step k u s = a := fun a r enough =>
      ((step_upTo (by omega) u s).resolve_left (r ▸ enough)).trans r
    cases a : step fuel u s with
    | yield e v t => exact .single (same _ a (by rintro ⟨_, _, fails⟩; cases fails))
    | skip v t =>
      have first := same _ a (by rintro ⟨_, _, fails⟩; cases fails)
      have rest := ih (u := v) (s := t) (by omega)
      dsimp only
      cases p : pull fuel v t with
      | event => rw [p] at rest; exact .skip first rest
      | ended =>
        rw [p] at rest
        obtain ⟨x, y, run, last⟩ := rest
        exact ⟨x, y, .skip first run, last⟩
      | stopped =>
        rw [p] at rest
        intro enough
        obtain ⟨x, y, run, last⟩ := rest enough
        exact ⟨x, y, .skip first run, last⟩
    | done v t => exact ⟨u, s, .refl u s, same _ a (by rintro ⟨_, _, fails⟩; cases fails)⟩
    | fail why v t =>
      intro enough
      refine ⟨u, s, .refl u s, same _ a ?_⟩
      rintro ⟨_, _, fails⟩
      cases fails
      exact enough rfl

theorem completes_of_collectFrom {fuel : Nat} (le : fuel ≤ k) (acc : List Event)
    (enough : (collectFrom acc fuel none u s).stop? ≠ some .outOfFuel) :
    ∃ es stop? w r, collectFrom acc fuel none u s = ⟨acc.reverse ++ es, stop?, w, r⟩ ∧ Completes k u s es stop? w r := by
  induction fuel generalizing u s acc with
  | zero => exact absurd rfl enough
  | succ fuel ih =>
    have run := run_of_pull (u := u) (s := s) (show fuel ≤ k by omega)
    rw [collectFrom] at enough ⊢
    · cases p : pull fuel u s with
      | event e v t =>
        rw [p] at run enough
        obtain ⟨es, stop?, w, r, collected, x, y, rest, last⟩ := ih (by omega) (e :: acc) enough
        refine ⟨e :: es, stop?, w, r, ?_, x, y, Run.trans run rest, last⟩
        simpa using collected
      | ended v t =>
        rw [p] at run
        exact ⟨[], none, v, t, by simp, run⟩
      | stopped why v t =>
        rw [p] at run enough
        exact ⟨[], some why, v, t, by simp, run fun same => enough (by rw [same])⟩
    · simp
    · simp

/-- **Pulling makes a run**, unless it lacks fuel. -/
theorem completes_of_collect {fuel : Nat} (enough : (collect fuel none u s).stop? ≠ some .outOfFuel) :
    Completes fuel u s (collect fuel none u s).events (collect fuel none u s).stop? (collect fuel none u s).stream
      (collect fuel none u s).store := by
  obtain ⟨es, stop?, w, r, collected, completes⟩ := completes_of_collectFrom (Nat.le_refl fuel) [] enough
  change collect fuel none u s = _ at collected
  rw [collected]
  exact completes

/-- With more fuel, pulling comes to the same. -/
theorem stays_enough {fuel : Nat} (h : (collect fuel none u s).stop? ≠ some .outOfFuel) :
    ∃ n, ∀ more, n ≤ more → (collect more none u s).stop? ≠ some .outOfFuel := by
  obtain ⟨n, same⟩ := collect_of_completes h (completes_of_collect h)
  exact ⟨n, fun more large => by rwa [same more large]⟩

/-- The state after some steps, if there are as many. -/
def after (k : Nat) : Nat → Stream → Store → Option (Stream × Store)
  | 0, u, s => some (u, s)
  | n + 1, u, s => match step k u s with
    | .yield _ v t | .skip v t => after k n v t
    | _ => none

theorem run_of_after (h : after k n u s = some (w, r)) : ∃ es, Run k u s es w r := by
  induction n generalizing u s with
  | zero =>
    cases h
    exact ⟨[], .refl _ _⟩
  | succ n ih =>
    rw [after] at h
    split at h
    · rename_i first
      obtain ⟨es, rest⟩ := ih h
      exact ⟨_, .yield first rest⟩
    · rename_i first
      obtain ⟨es, rest⟩ := ih h
      exact ⟨es, .skip first rest⟩
    · cases h

end Stream

end Stencil
