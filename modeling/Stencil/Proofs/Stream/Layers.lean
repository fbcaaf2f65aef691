import Stencil.Proofs.Stream.Done

/-!
# Where streams that are values are read

Directives are applied to elements before any expression of them is computed. So a stream that is a value is
read above all directives (`Stream.Layered`), and an element that directives have been applied to reads none
(`Stream.Bare`). When a stream has come to its end, so have the streams that it reads
(`Stream.rests_of_done`): what a step leaves behind has no frame in force but those it has pushed itself.
-/

namespace Stencil

namespace Advance

/-- The stream after a step. -/
def stream : Advance → Stream
  | yield _ u _ | skip u _ | done u _ | fail _ u _ => u

/-- The store after a step. -/
def store : Advance → Store
  | yield _ _ s | skip _ s | done _ s | fail _ _ s => s

end Advance

namespace Stream

variable {k : Nat} {u v : Stream} {s t : Store} {ds : List Directive} {read : List Event}

/-! ## Elements -/

/-- An element that directives have been applied to, and nothing else. -/
def Bare : Stream → Prop
  | replay _ => True
  | ended u | loop _ _ u | gathering _ _ _ u | looping _ _ _ _ u | attributes _ u | content _ _ u | replaced _ u
  | strip _ _ u => u.Bare
  | _ => False

theorem reads_of_bare (h : u.Bare) : u.reads = [] := by
  induction u with
  | replay => rfl
  | ended u ih | loop targets items u ih | gathering targets items body u ih | looping targets items body? current? u ih
  | attributes x u ih | content x phase u ih | replaced x u ih | strip test phase u ih => exact ih h
  | _ => exact h.elim

theorem bare_stepContent (x : Expression) (phase : ContentPhase) {a : Advance} (h : a.stream.Bare) :
    (stepContent x phase a).stream.Bare := by
  cases a with
  | yield e v r =>
    cases phase with
    | start =>
      simp only [stepContent]
      split <;> exact h
    | expression | last => exact h
  | skip v r => cases phase <;> exact h
  | done v r =>
    cases phase with
    | last latest? => cases latest? <;> exact h
    | start | expression => exact h
  | fail why v r => cases phase <;> exact h

theorem bare_stepStrip (test : Option Expression) (phase : StripPhase) {a : Advance} (h : a.stream.Bare) :
    (stepStrip test phase a).stream.Bare := by
  unfold stepStrip
  split <;> exact h

theorem bare_testStrip (test : Option Expression) (h : u.Bare) : (testStrip k test u s).stream.Bare := by
  unfold testStrip
  split
  · exact h
  · split
    · dsimp only [Advance.stream]
      split <;> exact h
    · exact h

theorem bare_startLoop (targets : List Text) (items : Expression) (h : u.Bare) :
    (startLoop k targets items u s).stream.Bare := by
  unfold startLoop
  split
  · exact h
  · split
    · exact h
    · split <;> exact h

theorem bare_stepLoop (targets : List Text) (items : List Value) (body? : Option (List Event))
    (current? : Option (Nat × List Event)) (h : u.Bare) : (stepLoop targets items body? current? u s).stream.Bare := by
  unfold stepLoop
  split
  case h_4 =>
    unfold startIteration
    split
    · exact h
    · dsimp only
      split <;> exact h
  all_goals exact h

theorem bare_mergeInto (x : Expression) (first : Event) (h : u.Bare) : (mergeInto k x first u s).stream.Bare := by
  unfold mergeInto
  split
  · split
    · exact h
    · split
      · split <;> exact h
      · exact h
  · exact h

/-- A bare stream stays bare. -/
theorem bare_step (h : u.Bare) : (step k u s).stream.Bare := by
  induction u generalizing s with
  | replay r =>
    simp only [step, stepReplay]
    split <;> trivial
  | ended u => exact h
  | loop targets items u => exact bare_startLoop targets items h
  | looping targets items body? current? u => exact bare_stepLoop targets items body? current? h
  | gathering targets items body u ih | replaced x u ih =>
    have inner := ih (s := s) h
    simp only [step]
    cases a : step k u s <;> rw [a] at inner <;> exact inner
  | attributes x u ih =>
    have inner := ih (s := s) h
    simp only [step]
    cases a : step k u s with
    | yield e v r => rw [a] at inner; exact bare_mergeInto x e inner
    | _ => rw [a] at inner; exact inner
  | content x phase u ih =>
    cases phase with
    | expression p => exact h
    | start | last => exact bare_stepContent x _ (ih h)
  | strip test phase u ih =>
    cases phase with
    | untested => exact bare_testStrip test h
    | first | second | holding => exact bare_stepStrip test _ (ih h)
  | _ => exact h.elim

/-- A bare stream, with or without directives still to be applied to it. -/
def Elemental : Stream → Prop
  | directed _ _ u => u.Bare
  | u => u.Bare

theorem elemental_of_bare (h : u.Bare) : u.Elemental := by
  cases u with
  | directed => exact h.elim
  | _ => exact h

theorem reads_of_elemental (h : u.Elemental) : u.reads = [] := by
  cases u with
  | directed ds read u => exact reads_of_bare (u := u) h
  | _ => exact reads_of_bare h

theorem elemental_test (wanted : Bool) (x : Expression) (h : u.Bare) : (test k wanted x ds u s).stream.Elemental := by
  unfold test
  split
  · split
    · exact h
    · trivial
  · trivial

/-- Applying directives reads no streams that are values. -/
theorem elemental_step (h : u.Bare) : (step k (directed ds read u) s).stream.Elemental := by
  cases ds with
  | nil => exact elemental_of_bare h
  | cons d ds =>
    have inner := bare_step (k := k) (s := s) h
    simp only [step]
    split
    · cases a : step k u s with
      | yield | skip => rw [a] at inner; exact inner
      | done => cases d <;> trivial
      | fail => trivial
    · cases d with
      | loop | replace | content | attributes | strip => exact h
      | condition x => exact elemental_test true x h
      | extension kind x? =>
        rcases kind with ⟨name, number, _ | _⟩
        · cases x? with
          | none => exact h
          | some x => exact elemental_test false x h
        · trivial
      | expand | define | capture => trivial

/-! ## Layers -/

/-- Directives are applied below all streams that are values. -/
def Layered : Stream → Prop
  | shared _ => True
  | append first rest => first.Layered ∧ rest.Layered
  | inserting _ _ _ inserted u => inserted.Layered ∧ u.Layered
  | evaluated u | tidied _ _ u | substituted _ _ _ u | matching _ _ _ _ _ _ u | included _ _ u | including _ _ _ u
  | expanded _ _ u => u.Layered
  | u => u.Elemental

theorem layered_of_elemental (h : u.Elemental) : u.Layered := by
  cases u with
  | shared | append | inserting | evaluated | tidied | substituted | matching | included | including | expanded => exact h.elim
  | _ => exact h

theorem layered_of_bare (h : u.Bare) : u.Layered := layered_of_elemental (elemental_of_bare h)

theorem layered_filtered (fs : List Filter) (h : u.Layered) : (u.filtered fs).Layered := by
  induction fs generalizing u with
  | nil => exact h
  | cons f fs ih => exact ih (u := f.apply u) (by cases f <;> exact h)

end Stream

theorem Template.layered_expansion (t : Template) : t.expansion.Layered :=
  Stream.layered_filtered _ (Stream.layered_filtered (u := .ofEvents t.events) _ trivial)

namespace Stream

variable {k : Nat} {u v : Stream} {s t : Store}

theorem layered_insert (filename : Text) (prefixes : List Text) (i : Inclusion) (h : u.Layered) :
    (insert filename prefixes i u s).stream.Layered := by
  unfold insert
  dsimp only
  split
  · split
    · exact h
    · split
      · rename_i m _ _
        exact ⟨m.layered_expansion, layered_filtered _ h⟩
      · unfold fallBack
        split
        · exact ⟨trivial, h⟩
        · exact h
  · exact h

theorem layered_evaluateEvent (e : Event) (h : u.Layered) : (evaluateEvent k e u s).stream.Layered := by
  unfold evaluateEvent
  split
  · split <;> exact h
  · split
    · exact h
    · exact ⟨trivial, h⟩
    · split <;> exact h
  · exact h

section

variable {a : Advance}

theorem layered_map (wrap : Stream → Stream) (h : (wrap a.stream).Layered) : (a.map wrap).stream.Layered := by
  cases a <;> exact h

theorem layered_stepTidied (text? : Option (Position × Text)) (h : a.stream.Layered) :
    (stepTidied text? a).stream.Layered := by
  unfold stepTidied
  split
  case h_2 | h_4 => split <;> exact h
  all_goals exact h

theorem layered_stepSubstituted (path : Path) (body : BodyId) (openElements : List Event) (h : a.stream.Layered) :
    (stepSubstituted path body openElements a).stream.Layered := by
  unfold stepSubstituted
  split
  · split
    · split <;> exact h
    · split <;> exact h
  · exact layered_map (.substituted path body openElements) h

theorem layered_stepMatching (path : Path) (body : BodyId) (openElements : List Event) (p : Position) (depth : Nat)
    (matched : List Event) (h : a.stream.Layered) :
    (stepMatching path body openElements p depth matched a).stream.Layered := by
  cases a with
  | yield e v r =>
    simp only [stepMatching]
    repeat' split
    all_goals exact h
  | _ => exact h

theorem layered_stepIncluded (filename : Text) (prefixes : List Text) (h : a.stream.Layered) :
    (stepIncluded filename prefixes a).stream.Layered := by
  unfold stepIncluded
  split
  case h_4 => exact layered_map (.included filename prefixes) h
  all_goals split <;> exact h

theorem layered_stepIncluding (filename : Text) (prefixes : List Text) (i : Inclusion) (h : a.stream.Layered) :
    (stepIncluding filename prefixes i a).stream.Layered := by
  cases a with
  | yield e v r =>
    simp only [stepIncluding]
    split
    · exact layered_insert filename prefixes _ h
    · exact h
  | done v r => exact layered_insert filename prefixes i h
  | skip | fail => exact h

theorem layered_stepInserting (filename : Text) (prefixes : List Text) (indentation : Nat) (outer : u.Layered)
    (h : a.stream.Layered) : (stepInserting filename prefixes indentation u a).stream.Layered := by
  unfold stepInserting
  split
  · exact ⟨h, outer⟩
  · exact outer
  · exact layered_map (.inserting filename prefixes indentation · u) ⟨h, outer⟩

theorem layered_stepExpanded (m : Template) (last : Position) (h : a.stream.Layered) :
    (stepExpanded m last a).stream.Layered := by
  unfold stepExpanded
  split
  · exact ⟨layered_filtered _ (layered_of_elemental (trivial : (ofEvents _).Bare)), h⟩
  case h_4 => trivial
  all_goals exact h

end

/-- The layers stay in order. -/
theorem layered_step (h : u.Layered) : (step k u s).stream.Layered := by
  induction u generalizing s with
  | shared id =>
    simp only [step, stepShared]
    split <;> trivial
  | append first rest ih =>
    have inner := ih (s := s) h.1
    simp only [step]
    cases a : step k first s with
    | done => exact h.2
    | _ => rw [a] at inner; exact ⟨inner, h.2⟩
  | directed ds read u => exact layered_of_elemental (elemental_step h)
  | evaluated u ih =>
    have inner := ih (s := s) h
    simp only [step]
    cases a : step k u s with
    | yield e v r => rw [a] at inner; exact layered_evaluateEvent e inner
    | done => trivial
    | skip | fail => rw [a] at inner; exact inner
  | tidied pending? text? u ih =>
    cases pending? with
    | some e => exact h
    | none => exact layered_stepTidied text? (ih h)
  | substituted path body openElements u ih => exact layered_stepSubstituted path body openElements (ih h)
  | matching path body openElements p depth matched u ih =>
    exact layered_stepMatching path body openElements p depth matched (ih h)
  | included filename prefixes u ih => exact layered_stepIncluded filename prefixes (ih h)
  | including filename prefixes i u ih => exact layered_stepIncluding filename prefixes i (ih h)
  | inserting filename prefixes n inserted u ih => exact layered_stepInserting filename prefixes n h.2 (ih h.1)
  | expanded m last u ih => exact layered_stepExpanded m last (ih h)
  | _ => exact layered_of_bare (bare_step h)

/-! ## Ends -/

/-- A replay at its end has no frame in force. -/
theorem rests_of_next {r : Replay} {c : Context} (none : (r.next c).1 = none) (d : Nat) (es : List Event) :
    (r.next c).2.1 ≠ .running d es := by
  cases r with
  | plain fs | waiting frame fs | running depth fs => cases fs <;> simp_all [Replay.next]
  | finished => simp [Replay.next]

theorem rests_of_stepShared {id : Nat} (done : stepShared id s = .done v t) : v = .shared id ∧ ∀ d, ¬ t.Runs id d := by
  unfold stepShared at done
  split at done
  · cases done
  · rename_i r c next
    cases done
    refine ⟨rfl, ?_⟩
    rintro d ⟨es, running⟩
    have running : (s.setReplay id r).replay id = .running d es := running
    have ended := rests_of_next (r := s.replay id) (c := s.context) (by rw [next]) d es
    rw [next] at ended
    by_cases there : id < s.replays.size
    · rw [Store.replay_setReplay r there, if_pos rfl] at running
      exact ended running
    · rw [Store.setReplay_absent r there, Store.replay_absent there] at running
      cases running

/-- **At the end of a stream, the streams that it reads have come to their end too.** -/
theorem rests_of_done (h : u.Layered) (done : step k u s = .done v t) : ∀ id ∈ v.reads, ∀ d, ¬ t.Runs id d := by
  have quiet {v : Stream} (elemental : v.Elemental) : ∀ id ∈ v.reads, ∀ d, ¬ t.Runs id d := by
    simp [reads_of_elemental elemental]
  induction u generalizing s v with
  | shared id =>
    obtain ⟨rfl, rests⟩ := rests_of_stepShared done
    exact fun j hj => (List.mem_singleton.1 hj) ▸ rests
  | directed ds read u => exact (directed_ne_done ds read u done).elim
  | append first rest => exact (append_ne_done first rest done).elim
  | evaluated u =>
    obtain rfl := of_evaluated_done done
    exact quiet trivial
  | tidied pending? text? u ih =>
    obtain ⟨w, ends, rfl⟩ := of_tidied_done done
    exact ih (v := w) h ends
  | substituted path body openElements u ih =>
    obtain ⟨w, ends, rfl⟩ := of_stepSubstituted_done done
    exact ih (v := w) h ends
  | matching path body openElements p depth matched u => exact (stepMatching_ne_done _ _ _ _ _ _ done).elim
  | included filename prefixes u ih =>
    obtain ⟨w, ends, rfl⟩ := of_stepIncluded_done done
    exact ih (v := w) h ends
  | including filename prefixes i u => exact (stepIncluding_ne_done _ _ _ done).elim
  | inserting filename prefixes n inserted u => exact (stepInserting_ne_done _ _ _ done).elim
  | expanded m last u =>
    obtain rfl := of_stepExpanded_done done
    exact quiet trivial
  | replay | ended | loop | gathering | looping | attributes | content | replaced | strip =>
    have after := elemental_of_bare (bare_step (k := k) (s := s) h)
    rw [done] at after
    exact quiet after

end Stream

/-- If the step has ended a stream, the streams that it reads have no frame in force. -/
def Advance.Rests : Advance → Prop
  | done u s => ∀ id ∈ u.reads, ∀ d, ¬ s.Runs id d
  | yield .. | skip .. | fail .. => True

theorem Stream.rests_step (h : u.Layered) : (step k u s).Rests := by
  cases done : step k u s with
  | done v t => exact rests_of_done h done
  | _ => trivial

end Stencil
