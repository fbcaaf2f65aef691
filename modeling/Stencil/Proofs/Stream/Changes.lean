import Stencil.Proofs.Stream.Closing
import Stencil.Proofs.Stream.ScopedStep

/-!
# What steps do to the store

Whatever a stream does, the store is changed in few ways only (`Store.Changes`): expressions make functions and streams,
streams that are values are read, templates are loaded, and there are changes to the context, to captured
events and to the log. A property of stores that each of these keeps is kept by all steps (`Stream.step_changes`).
-/

namespace Stencil

/-- The changes that steps make. -/
inductive Store.Changes : Store → Store → Prop
  /-- context, captured events, numbers and the log -/
  | other {s t : Store} (replays : t.replays = s.replays) (files : t.files = s.files)
      (library : t.library? = s.library?) : Changes s t
  | made {s t : Store} (made : s.Made t) : Changes s t
  /-- a stream that is a value is asked for an event -/
  | read (s : Store) (id : Nat) (c : Context) : Changes s (s.setReplay id ((s.replay id).next c).2.1)
  | load {s : Store} {l : Library} (library : s.library? = some l) (name relativeTo : Text) :
      Changes s (s.load l name relativeTo).2
  | trans {s t r : Store} (first : Changes s t) (second : Changes t r) : Changes s r

theorem Store.Changes.refl (s : Store) : s.Changes s := .other rfl rfl rfl

theorem Store.changes_capture (s : Store) (b : BodyId) (es : List Event) : s.Changes (s.capture b es) := by
  unfold capture
  split <;> exact .other rfl rfl rfl

open Store

namespace Stream

variable {k : Nat} {u : Stream} {s t : Store}

theorem changes_close (u : Stream) (s : Store) : s.Changes (u.close s) := by
  refine close_keeps (P := fun t => s.Changes t) ?_ u (.refl s)
  exact fun t d before => before.trans (.other rfl rfl rfl)

theorem changes_drop (ds : List Directive) (u : Stream) (s : Store) : s.Changes (drop ds u s).store := changes_close u s

theorem changes_test (wanted : Bool) (x : Expression) (ds : List Directive) (u : Stream) (s : Store) :
    s.Changes (test k wanted x ds u s).store := by
  unfold test
  split
  · rename_i value
    have made := Changes.made (Expression.eval_made value)
    split
    · exact made
    · exact made.trans (changes_drop ds u _)
  · exact changes_close u s

theorem changes_complete (d : Directive) (ds : List Directive) (es : List Event) (u : Stream) (s : Store) :
    s.Changes (complete d ds es u s).store := by
  unfold complete
  split
  · rename_i signature body
    have bound : (s.capture body es).Changes (bindTemplate signature body (s.capture body es)) := .other rfl rfl rfl
    exact ((changes_capture s body es).trans bound).trans (changes_drop ds u _)
  · exact (changes_capture s _ es).trans (changes_drop ds u _)
  · exact changes_close u s

theorem changes_applyDirective (d : Directive) (ds : List Directive) (u : Stream) (s : Store) :
    s.Changes (applyDirective k d ds u s).store := by
  unfold applyDirective
  split
  case h_2 | h_7 => exact changes_test _ _ ds u s
  case h_9 => exact (changes_close u s).trans (.other rfl rfl rfl)
  case h_10 => exact changes_complete _ ds [] u s
  all_goals exact .refl s

theorem changes_startLoop (targets : List Text) (items : Expression) (u : Stream) (s : Store) :
    s.Changes (startLoop k targets items u s).store := by
  unfold startLoop
  split
  · exact .refl s
  · rename_i value
    have made := Changes.made (Expression.eval_made value)
    split
    · exact made
    · split <;> exact made

theorem changes_stepLoop (targets : List Text) (items : List Value) (body? : Option (List Event))
    (current? : Option (Nat × List Event)) (u : Stream) (s : Store) :
    s.Changes (stepLoop targets items body? current? u s).store := by
  unfold stepLoop
  split
  · exact .refl s
  · exact .other rfl rfl rfl
  · exact .refl s
  · unfold startIteration
    split
    · exact .refl s
    · dsimp only
      split <;> exact .other rfl rfl rfl

theorem changes_mergeInto (x : Expression) (first : Event) (u : Stream) (s : Store) :
    s.Changes (mergeInto k x first u s).store := by
  unfold mergeInto
  split
  · split
    · exact .refl s
    · rename_i value
      have made := Changes.made (Expression.eval_made value)
      split
      · split <;> exact made
      · exact made
  · exact .refl s

theorem changes_testStrip (test : Option Expression) (u : Stream) (s : Store) : s.Changes (testStrip k test u s).store := by
  unfold testStrip
  split
  · exact .refl s
  · split
    · rename_i value
      exact .made (Expression.eval_made value)
    · exact .refl s

theorem changes_evaluateEvent (e : Event) (u : Stream) (s : Store) : s.Changes (evaluateEvent k e u s).store := by
  unfold evaluateEvent
  split
  · split
    · rename_i value
      exact .made (Attributes.eval_made value)
    · exact .refl s
  · split
    · exact .refl s
    · rename_i value
      exact .made (Expression.eval_made value)
    · rename_i value
      have made := Changes.made (Expression.eval_made value)
      split <;> exact made
  · exact .refl s

theorem changes_insert (filename : Text) (prefixes : List Text) (i : Inclusion) (u : Stream) (s : Store) :
    s.Changes (insert filename prefixes i u s).store := by
  unfold insert
  dsimp only
  split
  · split
    · exact .refl s
    · rename_i library found
      have loaded := Changes.load found (i.attributes.textOf "href") filename
      split
      · rename_i r
        rw [r] at loaded
        exact loaded
      · rename_i r
        rw [r] at loaded
        unfold fallBack
        split
        · exact loaded.trans (.other rfl rfl rfl)
        · exact loaded
  · exact .refl s

theorem changes_stepReplay (q : Replay) (s : Store) : s.Changes (stepReplay q .replay s).store := by
  unfold stepReplay
  split <;> exact .other rfl rfl rfl

theorem changes_stepShared (id : Nat) (s : Store) : s.Changes (stepShared id s).store := by
  have read : s.Changes (s.setReplay id ((s.replay id).next s.context).2.1) := .read s id s.context
  unfold stepShared
  split
  all_goals
    rename_i next
    rw [next] at read
    exact read.trans (.other rfl rfl rfl)

/-! ## Steps of streams that read another one -/

section

variable {a : Advance}

theorem changes_stepContent (x : Expression) (phase : ContentPhase) (h : s.Changes a.store) :
    s.Changes (stepContent x phase a).store := by
  unfold stepContent
  repeat' split
  all_goals exact h

theorem changes_stepStrip (test : Option Expression) (phase : StripPhase) (h : s.Changes a.store) :
    s.Changes (stepStrip test phase a).store := by
  unfold stepStrip
  split <;> exact h

theorem changes_stepTidied (text? : Option (Position × Text)) (h : s.Changes a.store) :
    s.Changes (stepTidied text? a).store := by
  unfold stepTidied
  repeat' split
  all_goals exact h

theorem changes_map (wrap : Stream → Stream) (h : s.Changes a.store) : s.Changes (a.map wrap).store := by
  cases a <;> exact h

theorem changes_stepSubstituted (path : Path) (body : BodyId) (openElements : List Event) (h : s.Changes a.store) :
    s.Changes (stepSubstituted path body openElements a).store := by
  unfold stepSubstituted
  split
  · repeat' split
    all_goals exact h
  · exact changes_map _ h

theorem changes_stepMatching (path : Path) (body : BodyId) (openElements : List Event) (p : Position) (depth : Nat)
    (matched : List Event) (h : s.Changes a.store) : s.Changes (stepMatching path body openElements p depth matched a).store := by
  cases a with
  | yield e v r =>
    simp only [stepMatching]
    repeat' split
    all_goals exact h
  | _ => exact h

theorem changes_stepIncluded (filename : Text) (prefixes : List Text) (h : s.Changes a.store) :
    s.Changes (stepIncluded filename prefixes a).store := by
  unfold stepIncluded
  split
  case h_4 => exact changes_map _ h
  all_goals split <;> exact h

theorem changes_stepIncluding (filename : Text) (prefixes : List Text) (i : Inclusion) (h : s.Changes a.store) :
    s.Changes (stepIncluding filename prefixes i a).store := by
  cases a with
  | yield e v r =>
    simp only [stepIncluding]
    split
    · exact h.trans (changes_insert filename prefixes _ v r)
    · exact h
  | done v r => exact h.trans (changes_insert filename prefixes i v r)
  | skip | fail => exact h

theorem changes_stepInserting (filename : Text) (prefixes : List Text) (indentation : Nat) (h : s.Changes a.store) :
    s.Changes (stepInserting filename prefixes indentation u a).store := by
  unfold stepInserting
  split
  · exact h
  · exact h.trans (changes_close _ _)
  · exact changes_map _ h

theorem changes_stepExpanded (t : Template) (last : Position) (h : s.Changes a.store) :
    s.Changes (stepExpanded t last a).store := by
  unfold stepExpanded
  split
  case h_4 => exact h.trans (changes_close _ _)
  all_goals exact h

end

section

variable (inner : s.Changes (step k u s).store)
include inner

theorem changes_append (rest : Stream) : s.Changes (step k (.append u rest) s).store := by
  simp only [step]
  generalize step k u s = a at inner
  cases a with
  | done v r => exact inner.trans (changes_close v r)
  | _ => exact inner

theorem changes_gathering (targets : List Text) (items : List Value) (body : List Event) :
    s.Changes (step k (.gathering targets items body u) s).store := by
  simp only [step]
  generalize step k u s = a at inner
  cases a <;> exact inner

theorem changes_attributes (x : Expression) : s.Changes (step k (.attributes x u) s).store := by
  simp only [step]
  generalize step k u s = a at inner
  cases a with
  | yield first v r => exact inner.trans (changes_mergeInto x first v r)
  | _ => exact inner

theorem changes_replaced (x : Expression) : s.Changes (step k (.replaced x u) s).store := by
  simp only [step]
  generalize step k u s = a at inner
  cases a <;> exact inner

theorem changes_directed (ds : List Directive) (read : List Event) : s.Changes (step k (.directed ds read u) s).store := by
  cases ds with
  | nil => exact .refl s
  | cons d ds =>
    simp only [step]
    split
    · generalize step k u s = a at inner
      cases a with
      | done v r => exact inner.trans (changes_complete d ds _ v r)
      | fail why v r => exact inner.trans (changes_close v r)
      | _ => exact inner
    · exact changes_applyDirective d ds u s

theorem changes_evaluated : s.Changes (step k (.evaluated u) s).store := by
  simp only [step]
  generalize step k u s = a at inner
  cases a with
  | yield e v r => exact inner.trans (changes_evaluateEvent e v r)
  | done v r => exact inner.trans (changes_close v r)
  | _ => exact inner

end

/-- **What a step does to the store is made of these changes.** -/
theorem step_changes (k : Nat) (u : Stream) (s : Store) : s.Changes (step k u s).store := by
  induction u generalizing s with
  | replay q => exact changes_stepReplay q s
  | shared id => exact changes_stepShared id s
  | ended u => exact .refl s
  | loop targets items u => exact changes_startLoop targets items u s
  | looping targets items body? current? u => exact changes_stepLoop targets items body? current? u s
  | append first rest ih => exact changes_append (ih s) rest
  | gathering targets items body u ih => exact changes_gathering (ih s) targets items body
  | attributes x u ih => exact changes_attributes (ih s) x
  | content x phase u ih =>
    cases phase with
    | expression p => exact .refl s
    | start | last => exact changes_stepContent x _ (ih s)
  | replaced x u ih => exact changes_replaced (ih s) x
  | strip test phase u ih =>
    cases phase with
    | untested => exact changes_testStrip test u s
    | first | second | holding => exact changes_stepStrip test _ (ih s)
  | directed ds read u ih => exact changes_directed (ih s) ds read
  | evaluated u ih => exact changes_evaluated (ih s)
  | tidied pending? text? u ih =>
    cases pending? with
    | some e => exact .refl s
    | none => exact changes_stepTidied text? (ih s)
  | substituted path body openElements u ih => exact changes_stepSubstituted path body openElements (ih s)
  | matching path body openElements p depth matched u ih =>
    exact changes_stepMatching path body openElements p depth matched (ih s)
  | included filename prefixes u ih => exact changes_stepIncluded filename prefixes (ih s)
  | including filename prefixes i u ih => exact changes_stepIncluding filename prefixes i (ih s)
  | inserting filename prefixes n inserted u ih => exact changes_stepInserting filename prefixes n (ih s)
  | expanded t last u ih => exact changes_stepExpanded t last (ih s)

end Stream

end Stencil
