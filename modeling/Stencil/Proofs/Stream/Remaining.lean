import Stencil.Proofs.Stream.Run
import Stencil.Proofs.Stream.Element
import Stencil.Proofs.Template.Capture

/-!
# Streams that look at nothing

Some streams are lists in disguise: those of elements to which only directives have been applied that
do not look at the context. `Stream.remaining` is the list. Each step of such a stream leaves the store
as it is and either hands on the head of the list or changes nothing about it
(`Stream.step_remaining`), and reading it to its end takes finitely many steps.
-/

namespace Stencil

namespace Stream

/-- What is left of the events in each phase of replacing an element's content. -/
def filledFrom (x : Expression) (phase : ContentPhase) (es : List Event) : List Event :=
  match phase with
  | .start => Directive.filled x es
  | .expression p => .expression p x :: es.getLast?.toList
  | .last latest? => (es.getLast?.or latest?).toList

/-- What is left of the events in each phase of removing an element's tags. -/
def strippedFrom (phase : StripPhase) (es : List Event) : List Event :=
  match phase with
  | .untested | .first => Directive.inside es
  | .second => es.dropLast
  | .holding e => (e :: es).dropLast

/-- The events that are left, for streams that do not depend on the store. -/
def remaining : Stream → Option (List Event)
  | replay (.plain es) => some es
  | ended u => u.remaining.map fun _ => []
  | content x phase u => u.remaining.map (filledFrom x phase)
  | replaced x u => u.remaining.map (Directive.replacement x)
  | strip none phase u => u.remaining.map (strippedFrom phase)
  | _ => none

/-- More than the number of steps up to the end of a stream that does not depend on the store. -/
def effort : Stream → Nat
  | replay (.plain es) => es.length
  | content _ .start u => u.effort + 3
  | content _ (.expression _) u => u.effort + 2
  | content _ (.last _) u | replaced _ u | strip _ .untested u => u.effort + 1
  | strip _ _ u => u.effort
  | _ => 0

/-- A step that reads a list: the store stays as it is, and there is less to do. -/
inductive Unrolls (s : Store) (n : Nat) : List Event → Advance → Prop
  | skip {u : Stream} {es : List Event} (left : u.remaining = some es) (less : u.effort < n) : Unrolls s n es (.skip u s)
  | yield {e : Event} {u : Stream} {es : List Event} (left : u.remaining = some es) (less : u.effort < n) :
      Unrolls s n (e :: es) (.yield e u s)
  | done {u : Stream} (left : u.remaining = some []) : Unrolls s n [] (.done u s)

variable {k : Nat} {u : Stream} {s : Store} {es : List Event}

/-- Giving up such a stream changes nothing. -/
theorem inert_of_remaining (h : u.remaining = some es) : Inert u := by
  induction u generalizing es with
  | replay r =>
    cases r with
    | plain => exact fun _ => rfl
    | _ => cases h
  | ended u ih | content x phase u ih | replaced x u ih =>
    obtain ⟨fs, left, -⟩ := Option.map_eq_some_iff.1 h
    exact ih left
  | strip test phase u ih =>
    cases test with
    | none =>
      obtain ⟨fs, left, -⟩ := Option.map_eq_some_iff.1 h
      exact ih left
    | some => cases h
  | _ => cases h

theorem unrolls_content (x : Expression) (phase : ContentPhase) {n : Nat} {a : Advance} (h : Unrolls s n es a)
    (other : ∀ p, phase ≠ .expression p) :
    Unrolls s (n + match phase with | .start => 3 | _ => 1) (filledFrom x phase es) (stepContent x phase a) := by
  cases phase with
  | expression p => exact absurd rfl (other p)
  | start =>
    cases h with
    | skip left less => exact .skip (by simp [remaining, left]) (by simp only [effort]; omega)
    | @yield e u es left less =>
      simp only [stepContent, filledFrom, Directive.filled]
      have next : (Stream.content x (.expression e.position) u).remaining =
          some (.expression e.position x :: es.getLast?.toList) := by simp [remaining, left, filledFrom]
      by_cases start : e.isStart
      · rw [if_pos start, if_pos start]
        exact .yield next (by simp only [effort]; omega)
      · rw [if_neg start, if_neg start]
        exact .skip next (by simp only [effort]; omega)
    | done left => exact .done (by simp [remaining, left])
  | last latest? =>
    cases h with
    | skip left less => exact .skip (by simp [remaining, left]) (by simp only [effort]; omega)
    | @yield e u es left less =>
      have same : ((e :: es).getLast?.or latest?) = es.getLast?.or (some e) := by
        cases h : es.getLast? <;> simp [List.getLast?_cons, h]
      simp only [filledFrom, same]
      exact .skip (by simp [remaining, left, filledFrom]) (by simp only [effort]; omega)
    | done left =>
      cases latest? with
      | none => exact .done (by simp [remaining, left])
      | some latest => exact .yield (by simp [remaining, left]) (by simp [effort])

theorem unrolls_strip {phase : StripPhase} {n : Nat} {a : Advance} (h : Unrolls s n es a) (tested : phase ≠ .untested) :
    Unrolls s n (strippedFrom phase es) (stepStrip none phase a) := by
  cases h with
  | @skip u es left less =>
    have next : (Stream.strip none phase u).remaining = some (strippedFrom phase es) := by simp [remaining, left]
    cases phase with
    | untested => exact absurd rfl tested
    | _ => exact .skip next less
  | @yield e u es left less =>
    cases phase with
    | untested => exact absurd rfl tested
    | first => exact .skip (by simp [remaining, left, strippedFrom, Directive.inside]) less
    | second => exact .skip (by simp [remaining, left, strippedFrom]) less
    | holding held => exact .yield (by simp [remaining, left, strippedFrom]) less
  | done left =>
    cases phase with
    | untested => exact absurd rfl tested
    | _ => exact .done (by simp [remaining, left])

/-- **A stream that does not depend on the store is read like a list.** -/
theorem step_remaining (h : u.remaining = some es) : Unrolls s u.effort es (step k u s) := by
  induction u generalizing es with
  | replay r =>
    cases r with
    | plain events =>
      cases h
      cases es with
      | nil => exact .done rfl
      | cons e es => exact .yield rfl (by simp [effort])
    | _ => cases h
  | ended u =>
    obtain ⟨fs, left, rfl⟩ := Option.map_eq_some_iff.1 h
    exact .done h
  | content x phase u ih =>
    obtain ⟨fs, left, rfl⟩ := Option.map_eq_some_iff.1 h
    cases phase with
    | expression p => exact .yield (by simp [remaining, left, filledFrom]) (by simp [effort])
    | start => exact unrolls_content x .start (ih left) (by simp)
    | last latest? => exact unrolls_content x (.last latest?) (ih left) (by simp)
  | replaced x u ih =>
    obtain ⟨fs, left, rfl⟩ := Option.map_eq_some_iff.1 h
    have inner := ih left
    simp only [step]
    generalize step k u s = a at inner
    cases inner with
    | skip next less => exact .skip (by simp [remaining, next]) (by simp only [effort]; omega)
    | yield next less => exact .yield (by simp [remaining, next]) (by simp [effort])
    | done next => exact .done (by simp [remaining, next])
  | strip test phase u ih =>
    cases test with
    | some => cases h
    | none =>
      obtain ⟨fs, left, rfl⟩ := Option.map_eq_some_iff.1 h
      cases phase with
      | untested => exact .skip (by simp [remaining, left, strippedFrom]) (by simp [effort])
      | first | second | holding => exact unrolls_strip (ih left) (by simp)
  | _ => cases h

/-- A directive that needs the events of its element reads all of them. -/
theorem run_reading {d : Directive} (needs : needsEvents d s = true) (rest : List Directive) (read : List Event)
    (h : u.remaining = some es) :
    ∃ v w, v.remaining = some [] ∧ Run k (.directed (d :: rest) read u) s [] w s ∧
      step k w s = complete d rest (read.reverse ++ es) v s := by
  induction n : u.effort using Nat.strongRecOn generalizing u es read with
  | ind n ih =>
    subst n
    have first := step_remaining (k := k) (s := s) h
    generalize a : step k u s = a at first
    cases first with
    | @skip v _ left less =>
      have next : step k (.directed (d :: rest) read u) s = .skip (.directed (d :: rest) read v) s := by
        rw [step, if_pos needs, a]
      obtain ⟨v, w, last, run, done⟩ := ih _ less read left rfl
      exact ⟨v, w, last, .skip next run, done⟩
    | @yield e v _ left less =>
      have next : step k (.directed (d :: rest) read u) s = .skip (.directed (d :: rest) (e :: read) v) s := by
        rw [step, if_pos needs, a]
      obtain ⟨v, w, last, run, done⟩ := ih _ less (e :: read) left rfl
      refine ⟨v, w, last, .skip next run, ?_⟩
      simpa using done
    | @done v left =>
      refine ⟨v, _, left, .refl _ _, ?_⟩
      rw [step, if_pos needs, a, List.append_nil]

end Stream

end Stencil
