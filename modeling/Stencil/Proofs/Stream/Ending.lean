import Stencil.Proofs.Stream.Progress
import Stencil.Proofs.Stream.SelfContained

/-!
# Streams that come to an end

A stream gets on for ever only if ever more streams wait for others to end. `Stream.Ends k n` says that a
stream takes finitely many steps as long as no more than `n` streams wait, however far the streams that are
values are read by others between its steps. Directives, filters and the expansion of a template keep this
(`Template.ends_expansion`).
-/

namespace Stencil

namespace Advance

/-- The step leads to a state, with an event or without one. -/
def LeadsTo (a : Advance) (v : Stream) (t : Store) : Prop := a = .skip v t ∨ ∃ e, a = .yield e v t

variable {a : Advance} {v : Stream} {t : Store}

theorem LeadsTo.stream (h : a.LeadsTo v t) : a.stream = v := by
  rcases h with rfl | ⟨e, rfl⟩ <;> rfl

theorem LeadsTo.store (h : a.LeadsTo v t) : a.store = t := by
  rcases h with rfl | ⟨e, rfl⟩ <;> rfl

theorem leadsTo_skip {u : Stream} {s : Store} : (skip u s).LeadsTo v t ↔ u = v ∧ s = t := by
  simp [LeadsTo]

theorem leadsTo_yield {e : Event} {u : Stream} {s : Store} : (yield e u s).LeadsTo v t ↔ u = v ∧ s = t := by
  simp [LeadsTo]

theorem not_leadsTo_done {u : Stream} {s : Store} : ¬ (done u s).LeadsTo v t := by simp [LeadsTo]

theorem not_leadsTo_fail {why : Stop} {u : Stream} {s : Store} : ¬ (fail why u s).LeadsTo v t := by simp [LeadsTo]

/-- A stream that hands on the steps of another one. -/
theorem LeadsTo.of_map (wrap : Stream → Stream) (h : (a.map wrap).LeadsTo v t) :
    ∃ u, a.LeadsTo u t ∧ v = wrap u := by
  cases a with
  | yield e u s =>
    obtain ⟨rfl, rfl⟩ := leadsTo_yield.1 h
    exact ⟨u, .inr ⟨e, rfl⟩, rfl⟩
  | skip u s =>
    obtain ⟨rfl, rfl⟩ := leadsTo_skip.1 h
    exact ⟨u, .inl rfl, rfl⟩
  | done => exact absurd h not_leadsTo_done
  | fail => exact absurd h not_leadsTo_fail

end Advance

open Advance Store

namespace Stream

/-- The streams that wait for another one to end, one after the other. -/
def waiting : Stream → Nat
  | replay _ | shared _ => 0
  | append first rest => max first.waiting (rest.waiting + 1)
  | inserting _ _ _ inserted u => max inserted.waiting (u.waiting + 1)
  | ended u | loop _ _ u | gathering _ _ _ u | looping _ _ _ _ u | attributes _ u | content _ _ u | replaced _ u
  | strip _ _ u | directed _ _ u | evaluated u | tidied _ _ u | substituted _ _ _ u | matching _ _ _ _ _ _ u
  | included _ _ u | including _ _ _ u | expanded _ _ u => u.waiting

/-- The stream comes to an end if no more than `n` streams ever wait. Other streams may get on between its steps. -/
inductive Ends (k n : Nat) : Stream → Store → Prop
  | intro {u : Stream} {s : Store}
      (next : ∀ r v t, s.GoesOn r → r.SelfContained → (step k u r).LeadsTo v t → v.waiting ≤ n → Ends k n v t) : Ends k n u s

variable {k n : Nat} {u v w : Stream} {s t r : Store}

theorem selfContained_of_leadsTo (stream : u.SelfContained) (h : r.SelfContained) (leads : (step k u r).LeadsTo v t) :
    v.SelfContained := by
  have next := (step_selfContained k stream h).both.1
  rwa [leads.stream] at next

theorem goesOn_of_leadsTo (h : (step k u r).LeadsTo v t) : r.GoesOn t := by
  have goesOn := step_goesOn k u r
  rwa [h.store] at goesOn

theorem Ends.goesOn (h : Ends k n u s) (later : s.GoesOn t) : Ends k n u t := by
  obtain ⟨next⟩ := h
  exact ⟨fun r v q more => next r v q (later.trans more)⟩

/-- What a step leads to that is made along with one of the stream `u`: a state that comes to an end, also if that
depends on `u` or on what is left of `u` after its step, or a stream that goes on along with `u`. -/
inductive Along (k n : Nat) (P : Stream → Stream → Prop) (u : Stream) (r : Store) (x : Stream) (t : Store) : Prop
  | ends (h : Ends k n x t)
  | keeps {v : Stream} {q : Store} (leads : (step k u r).LeadsTo v q) (later : q.GoesOn t) (few : v.waiting ≤ n) (p : P v x)
  | leaves {v : Stream} {q : Store} (leads : (step k u r).LeadsTo v q) (later : q.GoesOn t) (few : v.waiting ≤ n)
      (h : Ends k n v t → Ends k n x t)
  | stays (later : r.GoesOn t) (h : Ends k n u t → Ends k n x t)

/-- A stream comes to an end if it makes its steps along with another one that does. -/
theorem Ends.along {P : Stream → Stream → Prop}
    (follows : ∀ {u w r x t}, r.SelfContained → P u w → (step k w r).LeadsTo x t → x.waiting ≤ n → Along k n P u r x t)
    (h : Ends k n u s) (p : P u w) : Ends k n w s := by
  induction h generalizing w with
  | intro next ih =>
    refine ⟨fun r x t later contained leads few => ?_⟩
    cases follows contained p leads few with
    | ends ends => exact ends
    | keeps inner more fewer keeps => exact (ih r _ _ later contained inner fewer keeps).goesOn more
    | leaves inner more fewer ends => exact ends ((next r _ _ later contained inner fewer).goesOn more)
    | stays more ends => exact ends (Ends.goesOn ⟨next⟩ (later.trans more))

/-! ## Lists -/

theorem ends_replay (q : Replay) (s : Store) : Ends k n (.replay q) s := by
  generalize size : q.left.length = m
  induction m using Nat.strongRecOn generalizing q s with
  | ind m ih =>
    refine ⟨fun r v t _ _ leads _ => ?_⟩
    simp only [step, stepReplay] at leads
    split at leads
    · rename_i e q' c next
      obtain ⟨rfl, rfl⟩ := leadsTo_yield.1 leads
      have less := q.left_next_lt r.context (e := e) (by rw [next])
      rw [next] at less
      exact ih _ (size ▸ less) q' _ rfl
    · exact absurd leads not_leadsTo_done

theorem ends_ofEvents (es : List Event) (s : Store) : Ends k n (ofEvents es) s := ends_replay _ s

theorem leads_stepShared {id : Nat} (h : (stepShared id r).LeadsTo v t) :
    v = .shared id ∧ id < t.replays.size ∧ (t.replay id).left.length < (r.replay id).left.length := by
  unfold stepShared at h
  split at h
  · rename_i e q c next
    obtain ⟨rfl, rfl⟩ := leadsTo_yield.1 h
    have less := (r.replay id).left_next_lt r.context (e := e) (by rw [next])
    rw [next] at less
    have some : (r.replay id).left ≠ [] := by
      intro none
      rw [none] at less
      cases less
    have there : id < r.replays.size := by
      by_contra absent
      exact some (by rw [replay_absent absent]; rfl)
    refine ⟨rfl, ?_, ?_⟩
    · simpa [setReplay] using there
    · change ((r.setReplay id q).replay id).left.length < _
      rwa [replay_setReplay_self q some]
  · exact absurd h not_leadsTo_done

theorem ends_shared (id : Nat) (s : Store) : Ends k n (.shared id) s := by
  have there : ∀ m s, id < s.replays.size → (s.replay id).left.length = m → Ends k n (.shared id) s := by
    intro m
    induction m using Nat.strongRecOn with
    | ind m ih =>
      intro s there size
      refine ⟨fun r v t later _ leads _ => ?_⟩
      obtain ⟨rfl, still, less⟩ := leads_stepShared leads
      exact ih _ (size ▸ Nat.lt_of_lt_of_le less (later.left id there)) t still rfl
  -- the stream may be made only later, but it is there once an event of it has been read
  refine ⟨fun r v t _ _ leads _ => ?_⟩
  obtain ⟨rfl, still, -⟩ := leads_stepShared leads
  exact there _ t still rfl

/-! ## Parts of elements -/

theorem ends_ended (u : Stream) (s : Store) : Ends k n (.ended u) s := ⟨fun _ _ _ _ _ leads _ => absurd leads not_leadsTo_done⟩

theorem ends_iteration {targets : List Text} {items : List Value} {body? : Option (List Event)}
    (others : ∀ s, Ends k n (.looping targets items body? none u) s) (depth : Nat) (es : List Event) (s : Store) :
    Ends k n (.looping targets items body? (some (depth, es)) u) s := by
  induction es generalizing s with
  | nil =>
    refine ⟨fun r v t _ _ leads _ => ?_⟩
    obtain ⟨rfl, rfl⟩ := leadsTo_skip.1 leads
    exact others _
  | cons e es ih =>
    refine ⟨fun r v t _ _ leads _ => ?_⟩
    obtain ⟨rfl, rfl⟩ := leadsTo_yield.1 leads
    exact ih _

theorem leads_startIteration {targets : List Text} {item : Value} {items : List Value} {body? : Option (List Event)}
    (h : (startIteration targets item items body? u r).LeadsTo v t) :
    ∃ depth body, v = .looping targets items body? (some (depth, body)) u := by
  unfold startIteration at h
  split at h
  · exact absurd h not_leadsTo_fail
  · dsimp only at h
    split at h
    · exact ⟨_, _, (leadsTo_skip.1 h).1.symm⟩
    · exact absurd h not_leadsTo_fail

/-- A loop whose body has been read goes through its items. -/
theorem ends_looping (targets : List Text) (items : List Value) (body? : Option (List Event)) (u : Stream) (s : Store) :
    Ends k n (.looping targets items body? none u) s := by
  induction items generalizing s with
  | nil => exact ⟨fun r v t _ _ leads _ => absurd leads not_leadsTo_done⟩
  | cons item items ih =>
    refine ⟨fun r v t _ _ leads _ => ?_⟩
    obtain ⟨depth, body, rfl⟩ := leads_startIteration leads
    exact ends_iteration ih depth body t

theorem Ends.gathering (h : Ends k n u s) (targets : List Text) (items : List Value) (body : List Event) :
    Ends k n (.gathering targets items body u) s := by
  refine h.along (P := fun u w => ∃ body, w = .gathering targets items body u) ?_ ⟨body, rfl⟩
  rintro u _ r x t - ⟨body, rfl⟩ leads few
  simp only [step] at leads
  cases a : step k u r with
  | yield e v q =>
    rw [a] at leads
    obtain ⟨rfl, rfl⟩ := leadsTo_skip.1 leads
    exact .keeps (.inr ⟨e, a⟩) (.refl _) few ⟨_, rfl⟩
  | skip v q =>
    rw [a] at leads
    obtain ⟨rfl, rfl⟩ := leadsTo_skip.1 leads
    exact .keeps (.inl a) (.refl _) few ⟨_, rfl⟩
  | done v q =>
    rw [a] at leads
    obtain ⟨rfl, rfl⟩ := leadsTo_skip.1 leads
    exact .ends (ends_looping ..)
  | fail why v q =>
    rw [a] at leads
    exact absurd leads not_leadsTo_fail

theorem leads_startLoop {targets : List Text} {items : Expression} (h : (startLoop k targets items u r).LeadsTo v t) :
    ∃ vs, v = .gathering targets vs [] u := by
  unfold startLoop at h
  split at h
  · exact absurd h not_leadsTo_fail
  · split at h
    · exact absurd h not_leadsTo_done
    · split at h
      · exact ⟨_, (leadsTo_skip.1 h).1.symm⟩
      · exact absurd h not_leadsTo_fail

theorem Ends.loop (h : Ends k n u s) (targets : List Text) (items : Expression) : Ends k n (.loop targets items u) s := by
  refine ⟨fun r v t later _ leads _ => ?_⟩
  obtain ⟨vs, rfl⟩ := leads_startLoop leads
  exact (h.goesOn (later.trans (goesOn_of_leadsTo leads))).gathering targets vs []

theorem leads_mergeInto {x : Expression} {first : Event} (h : (mergeInto k x first u r).LeadsTo v t) : v = u ∧ r.GoesOn t := by
  have later := goesOn_mergeInto (k := k) x first u r
  rw [h.store] at later
  refine ⟨?_, later⟩
  unfold mergeInto at h
  split at h
  · split at h
    · exact absurd h not_leadsTo_fail
    · split at h
      · split at h
        · exact (leadsTo_yield.1 h).1.symm
        · exact absurd h not_leadsTo_fail
      · exact (leadsTo_yield.1 h).1.symm
  · exact (leadsTo_yield.1 h).1.symm

theorem Ends.attributes (h : Ends k n u s) (e : Expression) : Ends k n (.attributes e u) s := by
  refine h.along (P := fun u w => w = .attributes e u) ?_ rfl
  rintro u _ r x t - rfl leads few
  simp only [step] at leads
  cases a : step k u r with
  | yield first v q =>
    rw [a] at leads
    obtain ⟨rfl, later⟩ := leads_mergeInto leads
    exact .leaves (.inr ⟨first, a⟩) later few id
  | skip v q =>
    rw [a] at leads
    obtain ⟨rfl, rfl⟩ := leadsTo_skip.1 leads
    exact .keeps (.inl a) (.refl _) few rfl
  | done v q =>
    rw [a] at leads
    exact absurd leads not_leadsTo_done
  | fail why v q =>
    rw [a] at leads
    exact absurd leads not_leadsTo_fail

theorem Ends.replaced (h : Ends k n u s) (e : Expression) : Ends k n (.replaced e u) s := by
  refine h.along (P := fun u w => w = .replaced e u) ?_ rfl
  rintro u _ r x t - rfl leads few
  simp only [step] at leads
  cases a : step k u r with
  | yield first v q =>
    rw [a] at leads
    obtain ⟨rfl, rfl⟩ := leadsTo_yield.1 leads
    exact .ends (ends_ended ..)
  | skip v q =>
    rw [a] at leads
    obtain ⟨rfl, rfl⟩ := leadsTo_skip.1 leads
    exact .keeps (.inl a) (.refl _) few rfl
  | done v q =>
    rw [a] at leads
    exact absurd leads not_leadsTo_done
  | fail why v q =>
    rw [a] at leads
    exact absurd leads not_leadsTo_fail

theorem Ends.content (h : Ends k n u s) (e : Expression) (phase : ContentPhase) : Ends k n (.content e phase u) s := by
  -- only the last event is still looked for
  have lasts : ∀ {u s} latest?, Ends k n u s → Ends k n (.content e (.last latest?) u) s := by
    intro u s latest? h
    refine h.along (P := fun u w => ∃ latest?, w = .content e (.last latest?) u) ?_ ⟨latest?, rfl⟩
    rintro u _ r x t - ⟨latest?, rfl⟩ leads few
    simp only [step] at leads
    cases a : step k u r with
    | yield latest v q =>
      rw [a] at leads
      obtain ⟨rfl, rfl⟩ := leadsTo_skip.1 leads
      exact .keeps (.inr ⟨latest, a⟩) (.refl _) few ⟨_, rfl⟩
    | skip v q =>
      rw [a] at leads
      obtain ⟨rfl, rfl⟩ := leadsTo_skip.1 leads
      exact .keeps (.inl a) (.refl _) few ⟨_, rfl⟩
    | done v q =>
      rw [a] at leads
      cases latest? with
      | none => exact absurd leads not_leadsTo_done
      | some latest =>
        obtain ⟨rfl, rfl⟩ := leadsTo_yield.1 leads
        exact .ends (ends_ended ..)
    | fail why v q =>
      rw [a] at leads
      exact absurd leads not_leadsTo_fail
  have fills : ∀ {u s} p, Ends k n u s → Ends k n (.content e (.expression p) u) s := by
    intro u s p h
    refine ⟨fun r v t later _ leads _ => ?_⟩
    obtain ⟨rfl, rfl⟩ := leadsTo_yield.1 leads
    exact lasts none (h.goesOn later)
  cases phase with
  | last latest? => exact lasts latest? h
  | expression p => exact fills p h
  | start =>
    refine h.along (P := fun u w => w = .content e .start u) ?_ rfl
    rintro u _ r x t - rfl leads few
    simp only [step] at leads
    cases a : step k u r with
    | yield first v q =>
      rw [a] at leads
      simp only [stepContent] at leads
      have both : x = .content e (.expression first.position) v ∧ q = t := by
        split at leads
        · exact ⟨(leadsTo_yield.1 leads).1.symm, (leadsTo_yield.1 leads).2⟩
        · exact ⟨(leadsTo_skip.1 leads).1.symm, (leadsTo_skip.1 leads).2⟩
      obtain ⟨rfl, rfl⟩ := both
      exact .leaves (.inr ⟨first, a⟩) (.refl _) few (fills _)
    | skip v q =>
      rw [a] at leads
      obtain ⟨rfl, rfl⟩ := leadsTo_skip.1 leads
      exact .keeps (.inl a) (.refl _) few rfl
    | done v q =>
      rw [a] at leads
      exact absurd leads not_leadsTo_done
    | fail why v q =>
      rw [a] at leads
      exact absurd leads not_leadsTo_fail

theorem leads_testStrip {test : Option Expression} (h : (testStrip k test u r).LeadsTo v t) :
    (v = .strip test .first u ∨ v = u) ∧ r.GoesOn t := by
  have later := goesOn_testStrip (k := k) test u r
  rw [h.store] at later
  refine ⟨?_, later⟩
  unfold testStrip at h
  split at h
  · exact .inl (leadsTo_skip.1 h).1.symm
  · split at h
    · rw [← (leadsTo_skip.1 h).1]
      split
      · exact .inl rfl
      · exact .inr rfl
    · exact absurd h not_leadsTo_fail

theorem Ends.strip (h : Ends k n u s) (test : Option Expression) (phase : StripPhase) : Ends k n (.strip test phase u) s := by
  have removes : ∀ {u s phase}, phase ≠ .untested → Ends k n u s → Ends k n (.strip test phase u) s := by
    intro u s phase tested h
    refine h.along (P := fun u w => ∃ phase ≠ .untested, w = .strip test phase u) ?_ ⟨phase, tested, rfl⟩
    rintro u _ r x t - ⟨phase, tested, rfl⟩ leads few
    cases phase with
    | untested => exact absurd rfl tested
    | first | second | holding =>
      simp only [step] at leads
      cases a : step k u r with
      | yield e v q =>
        rw [a] at leads
        simp only [stepStrip, leadsTo_skip, leadsTo_yield] at leads
        obtain ⟨rfl, rfl⟩ := leads
        exact .keeps (.inr ⟨e, a⟩) (.refl _) few ⟨_, by simp, rfl⟩
      | skip v q =>
        rw [a] at leads
        obtain ⟨rfl, rfl⟩ := leadsTo_skip.1 leads
        exact .keeps (.inl a) (.refl _) few ⟨_, by simp, rfl⟩
      | done v q =>
        rw [a] at leads
        exact absurd leads not_leadsTo_done
      | fail why v q =>
        rw [a] at leads
        exact absurd leads not_leadsTo_fail
  cases phase with
  | untested =>
    refine ⟨fun r v t later _ leads _ => ?_⟩
    obtain ⟨rfl | rfl, more⟩ := leads_testStrip leads
    · exact removes (by simp) (h.goesOn (later.trans more))
    · exact h.goesOn (later.trans more)
  | first | second | holding => exact removes (by simp) h

/-! ## Directives -/

theorem leads_drop {ds : List Directive} (h : (drop ds u r).LeadsTo v t) : v = .directed ds [] .empty :=
  (leadsTo_skip.1 h).1.symm

theorem leads_test {wanted : Bool} {x : Expression} {ds : List Directive} (h : (test k wanted x ds u r).LeadsTo v t) :
    v = .directed ds [] u ∨ v = .directed ds [] .empty := by
  unfold test at h
  split at h
  · split at h
    · exact .inl (leadsTo_skip.1 h).1.symm
    · exact .inr (leads_drop h)
  · exact absurd h not_leadsTo_fail

theorem leads_complete {d : Directive} {ds : List Directive} {es : List Event} (h : (complete d ds es u r).LeadsTo v t) :
    ∃ es', v = .directed ds [] (.ofEvents es') := by
  unfold complete at h
  split at h
  · exact ⟨[], leads_drop h⟩
  · exact ⟨[], leads_drop h⟩
  · exact ⟨_, (leadsTo_skip.1 h).1.symm⟩

/-- What a directive makes of a stream comes to an end if the stream does. -/
theorem leads_applyDirective {d : Directive} {ds : List Directive} (h : (applyDirective k d ds u r).LeadsTo v t) :
    ∃ w, v = .directed ds [] w ∧ (Ends k n u t → Ends k n w t) := by
  have proceeds {w : Stream} {s : Store} (same : (proceed ds w s).LeadsTo v t) : v = .directed ds [] w :=
    (leadsTo_skip.1 same).1.symm
  have tests {wanted : Bool} {x : Expression} (same : (test k wanted x ds u r).LeadsTo v t) :
      ∃ w, v = .directed ds [] w ∧ (Ends k n u t → Ends k n w t) := by
    rcases leads_test same with rfl | rfl
    · exact ⟨u, rfl, id⟩
    · exact ⟨.empty, rfl, fun _ => ends_ofEvents [] t⟩
  unfold applyDirective at h
  split at h
  case h_1 targets items => exact ⟨_, proceeds h, fun ends => ends.loop targets items⟩
  case h_2 => exact tests h
  case h_3 e => exact ⟨_, proceeds h, fun ends => ends.replaced e⟩
  case h_4 e => exact ⟨_, proceeds h, fun ends => ends.content e .start⟩
  case h_5 e => exact ⟨_, proceeds h, fun ends => ends.attributes e⟩
  case h_6 e? => exact ⟨_, proceeds h, fun ends => ends.strip e? .untested⟩
  case h_7 => exact tests h
  case h_8 => exact ⟨_, proceeds h, id⟩
  case h_9 body matched => exact ⟨_, proceeds h, fun _ => ends_replay _ t⟩
  case h_10 =>
    obtain ⟨es, rfl⟩ := leads_complete h
    exact ⟨_, rfl, fun _ => ends_ofEvents es t⟩

theorem Ends.directed (h : Ends k n u s) (ds : List Directive) (read : List Event) : Ends k n (.directed ds read u) s := by
  induction ds generalizing u s read with
  | nil =>
    refine ⟨fun r v t later _ leads _ => ?_⟩
    obtain ⟨rfl, rfl⟩ := leadsTo_skip.1 leads
    exact h.goesOn later
  | cons d ds ih =>
    refine h.along (P := fun u w => ∃ read, w = .directed (d :: ds) read u) ?_ ⟨read, rfl⟩
    rintro u _ r x t - ⟨read, rfl⟩ leads few
    have later := goesOn_of_leadsTo leads
    simp only [step] at leads
    split at leads
    · cases a : step k u r with
      | yield e v q =>
        rw [a] at leads
        obtain ⟨rfl, rfl⟩ := leadsTo_skip.1 leads
        exact .keeps (.inr ⟨e, a⟩) (.refl _) few ⟨_, rfl⟩
      | skip v q =>
        rw [a] at leads
        obtain ⟨rfl, rfl⟩ := leadsTo_skip.1 leads
        exact .keeps (.inl a) (.refl _) few ⟨_, rfl⟩
      | done v q =>
        rw [a] at leads
        obtain ⟨es, rfl⟩ := leads_complete leads
        exact .ends (ih (ends_ofEvents es t) [])
      | fail why v q =>
        rw [a] at leads
        exact absurd leads not_leadsTo_fail
    · obtain ⟨w, rfl, ends⟩ := leads_applyDirective leads
      exact .stays later fun still => ih (ends still) []

end Stream

end Stencil
