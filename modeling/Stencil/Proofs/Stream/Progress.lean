import Stencil.Proofs.Stream.Changes

/-!
# Streams that are values get shorter

Whatever happens in an expansion, a stream that is a value has no more left afterwards than before, and no
stream is taken away (`Stream.step_goesOn`).
-/

namespace Stencil

namespace Replay

variable (r : Replay) (c : Context)

theorem left_next_le : (r.next c).2.1.left.length ≤ r.left.length := by
  rw [r.left_eq c, List.length_append]
  omega

/-- An event that is read is not left any more. -/
theorem left_next_lt {e : Event} (h : (r.next c).1 = some e) : (r.next c).2.1.left.length < r.left.length := by
  rw [r.left_eq c, h, List.length_append]
  simp

end Replay

namespace Store

/-- The second store may come after the first one: streams that are values have been read, and there may be more
of them. -/
structure GoesOn (s s' : Store) : Prop where
  size : s.replays.size ≤ s'.replays.size
  left : ∀ id < s.replays.size, (s'.replay id).left.length ≤ (s.replay id).left.length

variable {s t r : Store}

theorem GoesOn.of_replays (same : t.replays = s.replays) : s.GoesOn t where
  size := Nat.le_of_eq (congrArg Array.size same.symm)
  left id _ := by
    unfold replay
    rw [same]

theorem GoesOn.refl (s : Store) : s.GoesOn s := .of_replays rfl

theorem GoesOn.trans (h : s.GoesOn t) (h' : t.GoesOn r) : s.GoesOn r where
  size := h.size.trans h'.size
  left id there := (h'.left id (Nat.lt_of_lt_of_le there h.size)).trans (h.left id there)

theorem Made.goesOn (h : s.Made t) : s.GoesOn t := by
  obtain ⟨-, rs, replays, -⟩ := h
  have size : t.replays.size = s.replays.size + rs.length := by simp [replays]
  refine ⟨by omega, fun id there => ?_⟩
  simp [replay, replays, Array.getElem?_append_left there]

theorem goesOn_setReplay {id : Nat} {q : Replay} (shorter : q.left.length ≤ (s.replay id).left.length) :
    s.GoesOn (s.setReplay id q) where
  size := by simp [setReplay]
  left j _ := by
    rcases replay_setReplay_cases s id q j with same | ⟨rfl, same⟩
    · rw [same]
    · rwa [same]

theorem Changes.goesOn (h : s.Changes t) : s.GoesOn t := by
  induction h with
  | other replays => exact .of_replays replays
  | made made => exact made.goesOn
  | read s id c => exact goesOn_setReplay (Replay.left_next_le _ _)
  | @load s l library name relativeTo => exact .of_replays (s.load_beside l name relativeTo).2
  | trans _ _ ih ih' => exact ih.trans ih'

end Store

open Store

namespace Stream

variable {k : Nat} {u : Stream} {s t : Store}

theorem goesOn_mergeInto (x : Expression) (first : Event) (u : Stream) (s : Store) :
    s.GoesOn (mergeInto k x first u s).store := (changes_mergeInto x first u s).goesOn

theorem goesOn_testStrip (test : Option Expression) (u : Stream) (s : Store) : s.GoesOn (testStrip k test u s).store :=
  (changes_testStrip test u s).goesOn

theorem goesOn_evaluateEvent (e : Event) (u : Stream) (s : Store) : s.GoesOn (evaluateEvent k e u s).store :=
  (changes_evaluateEvent e u s).goesOn

/-- **No step gives a stream that is a value more events.** -/
theorem step_goesOn (k : Nat) (u : Stream) (s : Store) : s.GoesOn (step k u s).store := (step_changes k u s).goesOn

end Stream

end Stencil
