import Stencil.Library.Load
import Stencil.Proofs.Stream.Faithful
import Stencil.Proofs.Template.Slots

/-!
# Stores that differ in what is captured

`Store.Ahead known bodies s`: with other captured bodies the store `s` would be ahead of itself. Slots
that nothing is known of hold the same, and some known ones are full that are empty in `s`. Nothing but
the replay of a body and its capture looks at the bodies, so evaluation, closing and loading come to the
same with either (`Store.allows_ahead`, `Stream.close_withBodies`, `Store.load_withBodies`).
-/

namespace Stencil

namespace Store

/-- The store with other captured events. -/
def withBodies (s : Store) (bodies : List (BodyId × List Event)) : Store := { s with bodies := bodies }

/-- The store with the given bodies has captured more of what is known than the store itself. -/
structure Ahead (known : Known) (bodies : List (BodyId × List Event)) (s : Store) : Prop where
  less : ∀ b es, s.captured? b = some es → (s.withBodies bodies).captured? b = some es
  others : ∀ b, known b = none → (s.withBodies bodies).captured? b = s.captured? b
  kept : ∀ b es, (s.withBodies bodies).captured? b = some es → ∀ body, known b = some body → body = es
  events : ∀ b es, (s.withBodies bodies).captured? b = some es → Event.AllFaithful known es
  faithful : s.Faithful known

variable {known : Known} {bodies : List (BodyId × List Event)} {s s' : Store}

theorem Ahead.refl (h : s.Faithful known) : Ahead known s.bodies s :=
  ⟨fun _ _ captured => captured, fun _ _ => rfl, h.kept, h.bodies, h⟩

/-- Nothing has been captured in between. -/
theorem Ahead.next (h : Ahead known bodies s) (same : s'.bodies = s.bodies) (faithful : s'.Faithful known) :
    Ahead known bodies s' := by
  have captured : ∀ b, s'.captured? b = s.captured? b := by
    intro b
    unfold captured?
    rw [same]
  refine ⟨?_, ?_, h.kept, h.events, faithful⟩
  · intro b es
    rw [captured]
    exact h.less b es
  · intro b unknown
    rw [captured]
    exact h.others b unknown

theorem Ahead.full (h : Ahead known bodies s) {b : BodyId} (full : s.full b) : (s.withBodies bodies).full b := by
  obtain ⟨es, captured⟩ := Option.isSome_iff_exists.1 full
  exact Option.isSome_iff_exists.2 ⟨es, h.less b es captured⟩

theorem Ahead.body (h : Ahead known bodies s) {b : BodyId} (full : known b ≠ none → s.full b) :
    (s.withBodies bodies).body b = s.body b := by
  unfold Store.body
  by_cases unknown : known b = none
  · rw [h.others b unknown]
  · obtain ⟨es, captured⟩ := Option.isSome_iff_exists.1 (full unknown)
    rw [captured, h.less b es captured]

/-- The store that is ahead is faithful too. -/
theorem Ahead.left (h : Ahead known bodies s) : (s.withBodies bodies).Faithful known := by
  have larger : ∀ b, s.full b → (s.withBodies bodies).full b := fun b full => h.full full
  exact ⟨h.kept, h.events, h.faithful.context.mono (Stock.callable_mono larger),
    fun id live => (h.faithful.replay id live).mono larger, h.faithful.streams, h.faithful.holdings, h.faithful.numbers⟩

end Store

/-! ## Evaluation -/

open Eval Store

/-- Evaluation from a store and from one that is ahead of it. -/
theorem Store.allows_ahead (known : Known) (bodies : List (BodyId × List Event)) (s : Store) :
    Allows (.callable known s.full) fun t t' =>
      t = t'.withBodies bodies ∧ Ahead known bodies t' ∧ t'.bodies = s.bodies := by
  refine ⟨?_, ?_, ?_, ?_, ?_, ?_⟩
  · rintro _ t ⟨rfl, ahead, same⟩
    exact ⟨rfl, full_congr same ▸ ahead.faithful.context⟩
  · rintro _ t ⟨rfl, -, -⟩
    rfl
  · rintro _ t ⟨rfl, ahead, same⟩
    exact ⟨rfl, rfl, ahead.next rfl (ahead.faithful.numbered _), same⟩
  · rintro id kind (rfl | rfl | rfl | rfl) <;> trivial
  · rintro _ t ⟨id, _⟩ signature body frame ⟨rfl, ahead, same⟩ hf rfl hframe
    rw [← full_congr same] at hf hframe
    have body : (t.withBodies bodies).body body = t.body body := ahead.body hf
    refine ⟨rfl, ahead.faithful.streams, ?_, ahead.next rfl (ahead.faithful.newStream ⟨hframe, ahead.faithful.body _⟩), same⟩
    rw [body]
    rfl
  · rintro _ t ⟨id, _⟩ matched path ⟨rfl, ahead, same⟩ hf rfl
    refine ⟨rfl, ahead.faithful.streams, rfl, ahead.next rfl (ahead.faithful.newStream ?_), same⟩
    refine Event.allFaithful_iff.2 fun e he => ?_
    rcases Path.mem_select he with he | ⟨d, -, t, rfl⟩
    · exact Event.allFaithful_iff.1 hf e he
    · exact Event.faithful_text _ t

/-! ## Closing -/

theorem Stream.close_withBodies (bodies : List (BodyId × List Event)) (u : Stream) (s : Store) :
    u.close (s.withBodies bodies) = (u.close s).withBodies bodies := by
  induction u generalizing s with
  | replay | shared => rfl
  | append first rest ih ih' => exact (congrArg rest.close (ih s)).trans (ih' _)
  | inserting filename prefixes n inserted u ih ih' => exact (congrArg u.close (ih s)).trans (ih' _)
  | looping targets items body? current? u ih =>
    cases current? with
    | none => exact ih s
    | some c => exact ih (s.releaseFrom c.1)
  | ended u ih | loop targets items u ih | gathering targets items body u ih | attributes x u ih | content x phase u ih
  | replaced x u ih | strip test phase u ih | directed ds read u ih | evaluated u ih | tidied pending? text? u ih
  | substituted path body openElements u ih | matching path body openElements p depth matched u ih
  | included filename prefixes u ih | including filename prefixes i u ih | expanded t last u ih => exact ih s

theorem Stream.bodies_close (u : Stream) (s : Store) : (u.close s).bodies = s.bodies :=
  close_keeps (P := fun t => t.bodies = s.bodies) (fun _ _ h => h) u rfl

theorem Stream.bodies_giveUp (u : Stream) (s : Store) : (u.giveUp s).bodies = s.bodies :=
  giveUp_keeps (P := fun t => t.bodies = s.bodies) (fun _ _ h => h) (fun _ _ h => h) u rfl

theorem Store.Ahead.close {known : Known} {bodies : List (BodyId × List Event)} {s : Store}
    (h : Ahead known bodies s) (u : Stream) : Ahead known bodies (u.close s) :=
  h.next (Stream.bodies_close u s) (h.faithful.close u)

/-! ## Loading -/

namespace Store

variable {known : Known} {s : Store}

/-- A template that is compiled now has slots of which nothing is known. -/
theorem Faithful.compileFile (h : s.Faithful known) (path : Text) :
    (s.compileFile path).2.Faithful known ∧ ∀ t, (s.compileFile path).1 = .ok t → Event.AllFaithful known t.events := by
  unfold Store.compileFile
  split
  · exact ⟨h, by simp⟩
  · rename_i content _
    have after : Faithful known { s.reportAll
        (Compilation.ofDocument ⟨s.nextTemplate, path, s.registry⟩ (documentOf content)).log with nextTemplate := s.nextTemplate + 1 } :=
      ⟨h.kept, h.bodies, h.context, h.replay, h.streams, h.holdings, fun b later => h.numbers b (Nat.le_of_succ_le later)⟩
    dsimp only
    split
    · rename_i t compiled
      refine ⟨after, ?_⟩
      rintro _ ⟨⟩
      apply Event.allFaithful_of_slots
      intro b hb
      apply h.numbers
      rw [(Compilation.slots_of_document compiled).2 b hb]
    · exact ⟨after, by simp⟩

theorem Faithful.compileAndKeep (h : s.Faithful known) {l : Library} (found : s.library? = some l) (path : Text)
    (modified : Timestamp) :
    (s.compileAndKeep l path modified).2.Faithful known ∧
      ∀ t, (s.compileAndKeep l path modified).1 = .ok t → Event.AllFaithful known t.events := by
  have compiled := h.compileFile path
  unfold Store.compileAndKeep
  split
  · rename_i t s' r
    rw [r] at compiled
    obtain ⟨after, events⟩ := compiled
    refine ⟨⟨after.kept, after.bodies, after.context, after.replay, after.streams, ?_, after.numbers⟩, events⟩
    rintro _ ⟨⟩ holding hh
    rcases List.mem_append.1 hh with old | new
    · exact h.holdings l found holding (List.mem_filter.1 old).1
    · rw [List.mem_singleton.1 new]
      exact events t rfl
  · exact compiled

/-- Loading gives templates with faithful events. -/
theorem Faithful.load (h : s.Faithful known) {l : Library} (found : s.library? = some l) (name relativeTo : Text) :
    (s.load l name relativeTo).2.Faithful known ∧
      ∀ t, (s.load l name relativeTo).1 = .ok t → Event.AllFaithful known t.events := by
  unfold Store.load
  split
  · rename_i path modified _
    unfold loadFile
    split
    · rename_i holding kept
      obtain ⟨entry, mem, rfl⟩ := Option.map_eq_some_iff.1 kept
      split
      · refine ⟨h.report _ _, ?_⟩
        rintro _ ⟨⟩
        exact h.holdings l found entry (List.mem_of_find?_eq_some mem)
      · exact (h.report _ _).compileAndKeep found path modified
    · exact (h.report _ _).compileAndKeep found path modified
  · exact ⟨h, by simp⟩

variable (bodies : List (BodyId × List Event))

theorem compileFile_withBodies (s : Store) (path : Text) :
    (s.withBodies bodies).compileFile path = ((s.compileFile path).1, (s.compileFile path).2.withBodies bodies) := by
  unfold Store.compileFile
  rw [show (s.withBodies bodies).files = s.files from rfl]
  cases s.files.content path with
  | error => rfl
  | ok content =>
    dsimp only
    rw [show (s.withBodies bodies).nextTemplate = s.nextTemplate from rfl,
      show (s.withBodies bodies).registry = s.registry from rfl]
    cases (Compilation.ofDocument ⟨s.nextTemplate, path, s.registry⟩ (documentOf content)).result <;> rfl

theorem compileAndKeep_withBodies (s : Store) (l : Library) (path : Text) (modified : Timestamp) :
    (s.withBodies bodies).compileAndKeep l path modified =
      ((s.compileAndKeep l path modified).1, (s.compileAndKeep l path modified).2.withBodies bodies) := by
  unfold Store.compileAndKeep
  rw [compileFile_withBodies]
  generalize s.compileFile path = r
  obtain ⟨t | f, s'⟩ := r <;> rfl

theorem loadFile_withBodies (s : Store) (l : Library) (path : Text) (modified : Timestamp) :
    (s.withBodies bodies).loadFile l path modified =
      ((s.loadFile l path modified).1, (s.loadFile l path modified).2.withBodies bodies) := by
  unfold loadFile
  cases l.find? path with
  | none => exact compileAndKeep_withBodies bodies (s.report _ _) l path modified
  | some h =>
    dsimp only
    by_cases current : l.isCurrent h modified
    · rw [if_pos current, if_pos current]
      rfl
    · rw [if_neg current, if_neg current]
      exact compileAndKeep_withBodies bodies (s.report _ _) l path modified

/-- Loading does not look at what is captured. -/
theorem load_withBodies (s : Store) (l : Library) (name relativeTo : Text) :
    (s.withBodies bodies).load l name relativeTo =
      ((s.load l name relativeTo).1, (s.load l name relativeTo).2.withBodies bodies) := by
  unfold Store.load
  rw [show (s.withBodies bodies).present? = s.present? from rfl]
  cases (l.candidates name relativeTo).findSome? s.present? with
  | none => rfl
  | some p => exact loadFile_withBodies bodies s l p.1 p.2

theorem bodies_compileFile (s : Store) (path : Text) : (s.compileFile path).2.bodies = s.bodies := by
  unfold Store.compileFile
  split
  · rfl
  · dsimp only
    split <;> rfl

theorem bodies_compileAndKeep (s : Store) (l : Library) (path : Text) (modified : Timestamp) :
    (s.compileAndKeep l path modified).2.bodies = s.bodies := by
  have compiled := bodies_compileFile s path
  unfold Store.compileAndKeep
  split
  · rename_i t s' r
    rw [r] at compiled
    exact compiled
  · exact compiled

theorem bodies_load (s : Store) (l : Library) (name relativeTo : Text) :
    (s.load l name relativeTo).2.bodies = s.bodies := by
  unfold Store.load
  split
  · unfold loadFile
    split
    · split
      · rfl
      · exact bodies_compileAndKeep (s.report ..) ..
    · exact bodies_compileAndKeep (s.report ..) ..
  · rfl

theorem Ahead.load {bodies : List (BodyId × List Event)} (h : Ahead known bodies s) {l : Library}
    (found : s.library? = some l) (name relativeTo : Text) : Ahead known bodies (s.load l name relativeTo).2 :=
  h.next (bodies_load s l name relativeTo) (h.faithful.load found name relativeTo).1

end Store

end Stencil
