import Mathlib.Data.List.Nodup
import Stencil.Context

/-!
# Frames and the scopes that own them

A scope knows its frame by a depth alone. Here a host pushes and pops frames, binds names, and enters and
releases scopes in any order (`Usage.run`), and frames are told apart by the order in which they were pushed.

As long as the frame of a scope is on the stack it is at the depth that the scope knows (`Usage.Sound`), so
releasing the scope removes this frame and those above it. Once the frame has gone otherwise, another one may
have come to its depth: that one is removed then, and nothing in all other cases
(`Usage.release_removes_own`).
-/

namespace Stencil

namespace Context

/-- The context without its `n` top frames. -/
def lower (c : Context) (n : Nat) : Context := { c with upper := c.upper.drop n }

theorem depth_lower (c : Context) (n : Nat) : (c.lower n).depth = c.upper.length - n + 1 := by
  simp [lower, depth]

theorem eq_lower_of_pop {c c' : Context} (h : c.pop? = some c') : c' = c.lower 1 := by
  unfold pop? at h
  split at h <;> cases h
  rename_i upper
  simp [lower, upper]

theorem length_upper_set (c : Context) (name : Text) (v : Value) : (c.set name v).upper.length = c.upper.length := by
  unfold set
  split <;> simp [*]

/-- Frames are removed, unless there are none to remove. -/
theorem lower_eq_self_iff {c : Context} {n : Nat} : c.lower n = c ↔ n = 0 ∨ c.upper = [] := by
  refine ⟨fun same => ?_, ?_⟩
  · have length : (c.upper.drop n).length = c.upper.length := congrArg (·.upper.length) same
    rw [List.length_drop] at length
    rw [← List.length_eq_zero_iff]
    omega
  · rintro (rfl | nothing)
    · rfl
    · cases c
      simp_all [lower]

end Context

/-- The frames that releasing the scope removes. -/
def Scope.reach (s : Scope) (c : Context) : Nat :=
  match s.depth? with
  | some d => c.depth + 1 - d
  | none => 0

theorem Scope.release_eq (s : Scope) (c : Context) : s.release c = (c.lower (s.reach c), ⟨none⟩) := by
  obtain ⟨_ | d⟩ := s <;> rfl

namespace Context

/-! ## Contexts in use -/

/-- What a host does with a context and with the scopes it has entered on it. -/
inductive Use where
  | push (frame : Frame)
  | pop
  | set (name : Text) (value : Value)
  | enter (frame : Frame)
  /-- scopes are counted in the order in which they were entered -/
  | release (n : Nat)

/-- A context in use. What a frame holds may change, and two frames may hold the same: they are told apart by
the number of frames that had been pushed before. -/
structure Usage where
  context : Context
  /-- the numbers of the frames over the base frame, the top one first -/
  numbers : List Nat
  /-- the scopes in the order in which they were entered, each with the number of its frame -/
  scopes : List (Scope × Nat)
  /-- the frames that have been pushed -/
  pushed : Nat

namespace Usage

def ofBase (base : Frame) : Usage := ⟨Context.ofBase base, [], [], 0⟩

/-- Goes on with a context from which frames have been removed, which come off the top. -/
def reduced (u : Usage) (c : Context) : Usage :=
  { u with context := c, numbers := u.numbers.drop (u.context.depth - c.depth) }

def pop (u : Usage) : Usage :=
  match u.context.pop? with
  | some c => u.reduced c
  | none => u

def enter (u : Usage) (f : Frame) : Usage :=
  let (c, s) := Scope.enter u.context f
  ⟨c, u.pushed :: u.numbers, u.scopes ++ [(s, u.pushed)], u.pushed + 1⟩

def release (u : Usage) (n : Nat) : Usage :=
  match u.scopes[n]? with
  | some (s, i) =>
    let (c, s) := s.release u.context
    { u.reduced c with scopes := u.scopes.set n (s, i) }
  | none => u

def step (u : Usage) : Use → Usage
  | .push f => { u with context := u.context.push f, numbers := u.pushed :: u.numbers, pushed := u.pushed + 1 }
  | .pop => u.pop
  | .set name v => { u with context := u.context.set name v }
  | .enter f => u.enter f
  | .release n => u.release n

def run (u : Usage) (uses : List Use) : Usage := uses.foldl step u

/-- What the numbers say of the frames and scopes. -/
structure Sound (u : Usage) : Prop where
  /-- each frame over the base frame has a number -/
  numbered : u.numbers.length = u.context.upper.length
  distinct : u.numbers.Nodup
  older : ∀ i ∈ u.numbers, i < u.pushed
  entered : ∀ s i, (s, i) ∈ u.scopes → i < u.pushed
  /-- no scope knows the depth of the base frame -/
  above : ∀ s i, (s, i) ∈ u.scopes → ∀ d, s.depth? = some d → 1 < d
  /-- a frame that is older than that of a scope is not as deep as the scope knows -/
  low : ∀ s i, (s, i) ∈ u.scopes → ∀ d, s.depth? = some d → ∀ front j under, u.numbers = front ++ j :: under → j < i →
    under.length + 2 < d
  /-- a frame that is still there is at the depth its scope knows -/
  place : ∀ s i, (s, i) ∈ u.scopes → ∀ front under, u.numbers = front ++ i :: under → s.depth? = some (under.length + 2)

variable {u : Usage} {n i : Nat} {s : Scope}

/-- There are as many frames as numbers, over a frame and under it. -/
theorem Sound.height (h : u.Sound) {front under : List Nat} (numbers : u.numbers = front ++ i :: under) :
    u.context.upper.length = front.length + (under.length + 1) := by
  rw [← h.numbered, numbers, List.length_append, List.length_cons]

theorem sound_ofBase (base : Frame) : (ofBase base).Sound where
  numbered := rfl
  distinct := .nil
  older := by simp [ofBase]
  entered := by simp [ofBase]
  above := by simp [ofBase]
  low := by simp [ofBase]
  place := by simp [ofBase]

/-- As many numbers come off as frames. -/
theorem Sound.reduced_lower (h : u.Sound) (n : Nat) :
    u.reduced (u.context.lower n) = { u with context := u.context.lower n, numbers := u.numbers.drop n } := by
  have same : u.numbers.drop (u.context.depth - (u.context.lower n).depth) = u.numbers.drop n := by
    rw [depth_lower, depth]
    rcases Nat.le_total n u.context.upper.length with le | le
    · congr 1
      omega
    · rw [List.drop_eq_nil_of_le (by rw [h.numbered]; omega), List.drop_eq_nil_of_le (by rw [h.numbered]; exact le)]
  rw [reduced, same]

theorem Sound.reduced (h : u.Sound) (n : Nat) : (u.reduced (u.context.lower n)).Sound := by
  rw [h.reduced_lower]
  have whole {front under : List Nat} {i : Nat} (numbers : u.numbers.drop n = front ++ i :: under) :
      u.numbers = (u.numbers.take n ++ front) ++ i :: under := by
    rw [List.append_assoc, ← numbers, List.take_append_drop]
  refine ⟨?_, h.distinct.sublist (List.drop_sublist ..), fun i there => h.older i (List.mem_of_mem_drop there), h.entered,
    h.above, fun s i held d known front j under numbers => ?_, fun s i held front under numbers => ?_⟩
  · simp [Context.lower, h.numbered]
  · exact h.low s i held d known _ j under (whole numbers)
  · exact h.place s i held _ under (whole numbers)

/-- A frame with a new number goes on top, and may belong to a new scope. -/
theorem Sound.push (h : u.Sound) (f : Frame) (entered : List (Scope × Nat))
    (own : ∀ e ∈ entered, e = (⟨some (u.context.depth + 1)⟩, u.pushed)) :
    (⟨u.context.push f, u.pushed :: u.numbers, u.scopes ++ entered, u.pushed + 1⟩ : Usage).Sound := by
  have cases {s : Scope} {i : Nat} (held : (s, i) ∈ u.scopes ++ entered) :
      (s, i) ∈ u.scopes ∨ s = ⟨some (u.context.depth + 1)⟩ ∧ i = u.pushed :=
    (List.mem_append.1 held).imp_right fun new => Prod.mk.inj (own _ new)
  refine ⟨?_, ?_, ?_, ?_, ?_, ?_, ?_⟩
  · simp [Context.push, h.numbered]
  · exact h.distinct.cons fun there => Nat.lt_irrefl _ (h.older _ there)
  · exact List.forall_mem_cons.2 ⟨Nat.lt_succ_self _, fun i there => Nat.lt_succ_of_lt (h.older i there)⟩
  · intro s i held
    rcases cases held with held | ⟨-, rfl⟩
    · exact Nat.lt_succ_of_lt (h.entered s i held)
    · exact Nat.lt_succ_self _
  · intro s i held d known
    rcases cases held with held | ⟨rfl, -⟩
    · exact h.above s i held d known
    · cases known
      simp [Context.depth]
  · intro s i held d known front j under numbers older
    cases front with
    | nil =>
      obtain ⟨rfl, rfl⟩ := List.cons.inj numbers
      rcases cases held with held | ⟨-, rfl⟩
      · exact absurd (h.entered s i held) (Nat.lt_asymm older)
      · exact absurd older (Nat.lt_irrefl _)
    | cons j' front =>
      have rest : u.numbers = front ++ j :: under := (List.cons.inj numbers).2
      rcases cases held with held | ⟨rfl, -⟩
      · exact h.low s i held d known front j under rest older
      · cases known
        have height := h.height rest
        rw [Context.depth]
        omega
  · intro s i held front under numbers
    cases front with
    | nil =>
      obtain ⟨rfl, rfl⟩ := List.cons.inj numbers
      rcases cases held with held | ⟨rfl, -⟩
      · exact absurd (h.entered s _ held) (Nat.lt_irrefl _)
      · simp [Context.depth, h.numbered]
    | cons j front =>
      obtain ⟨rfl, rest⟩ := List.cons.inj numbers
      rcases cases held with held | ⟨-, rfl⟩
      · exact h.place s i held front under rest
      · exact absurd (h.older u.pushed (by simp [rest])) (Nat.lt_irrefl _)

/-- A frame that is there is the one its scope reaches down to. -/
theorem Sound.reach (h : u.Sound) (held : (s, i) ∈ u.scopes) {front under : List Nat} (numbers : u.numbers = front ++ i :: under) :
    s.reach u.context = front.length + 1 := by
  have height := h.height numbers
  rw [Scope.reach, h.place s i held front under numbers, Context.depth]
  dsimp only
  omega

theorem release_eq (held : u.scopes[n]? = some (s, i)) :
    u.release n = { u.reduced (u.context.lower (s.reach u.context)) with scopes := u.scopes.set n (⟨none⟩, i) } := by
  simp only [release, held, Scope.release_eq]

/-- After its frame those below it are left. -/
theorem Sound.under (h : u.Sound) (held : (s, i) ∈ u.scopes) {front under : List Nat} (numbers : u.numbers = front ++ i :: under) :
    u.numbers.drop (s.reach u.context) = under := by
  rw [h.reach held numbers, numbers, List.drop_append]
  simp

theorem Sound.release (h : u.Sound) (n : Nat) : (u.release n).Sound := by
  cases held : u.scopes[n]? with
  | none => simpa only [Usage.release, held] using h
  | some e =>
    obtain ⟨s, i⟩ := e
    rw [release_eq held]
    have lowered := h.reduced (s.reach u.context)
    have member : (s, i) ∈ u.scopes := List.mem_of_getElem? held
    have cases {s' : Scope} {j : Nat} (held : (s', j) ∈ u.scopes.set n (⟨none⟩, i)) :
        (s', j) ∈ u.scopes ∨ s' = ⟨none⟩ ∧ j = i := (List.mem_or_eq_of_mem_set held).imp_right Prod.mk.inj
    refine ⟨lowered.numbered, lowered.distinct, lowered.older, ?_, ?_, ?_, ?_⟩
    · intro s' j held
      rcases cases held with held | ⟨-, rfl⟩
      · exact h.entered s' j held
      · exact h.entered s j member
    · intro s' j held d known
      rcases cases held with held | ⟨rfl, -⟩
      · exact h.above s' j held d known
      · cases known
    · intro s' j held d known
      rcases cases held with held | ⟨rfl, -⟩
      · exact lowered.low s' j held d known
      · cases known
    · intro s' j held front under numbers
      rcases cases held with held | ⟨-, rfl⟩
      · exact lowered.place s' j held front under numbers
      -- the frame of the scope itself is not there any more
      · have left : j ∈ u.numbers.drop (s.reach u.context) := by
          have kept : (u.reduced (u.context.lower (s.reach u.context))).numbers = front ++ j :: under := numbers
          rw [h.reduced_lower] at kept
          change u.numbers.drop _ = _ at kept
          simp [kept]
        obtain ⟨front, under, whole⟩ := List.append_of_mem (List.mem_of_mem_drop left)
        rw [h.under member whole] at left
        have distinct := h.distinct
        rw [whole] at distinct
        exact absurd left (List.nodup_cons.1 (List.nodup_append.1 distinct).2.1).1

/-- **No step confuses the frames.** -/
theorem Sound.step (h : u.Sound) (use : Use) : (u.step use).Sound := by
  cases use with
  | push f =>
    have pushed := h.push f [] (by simp)
    rwa [List.append_nil] at pushed
  | pop =>
    change u.pop.Sound
    unfold Usage.pop
    split
    · rename_i popped
      rw [eq_lower_of_pop popped]
      exact h.reduced 1
    · exact h
  | set name v => exact ⟨h.numbered.trans (length_upper_set ..).symm, h.distinct, h.older, h.entered, h.above, h.low, h.place⟩
  | enter f => exact h.push f [_] (by simp)
  | release n => exact h.release n

theorem Sound.run (h : u.Sound) (uses : List Use) : (u.run uses).Sound := by
  induction uses generalizing u with
  | nil => exact h
  | cons use uses ih => exact ih (h.step use)

/-! ## Releasing a scope -/

/-- A frame that is older than that of a scope is not reached. -/
theorem Sound.left (h : u.Sound) (held : (s, i) ∈ u.scopes) {j : Nat} (there : j ∈ u.numbers) (older : j < i) :
    j ∈ u.numbers.drop (s.reach u.context) := by
  obtain ⟨front, under, numbers⟩ := List.append_of_mem there
  have height := h.height numbers
  have reached : s.reach u.context ≤ front.length := by
    cases known : s.depth? with
    | none => simp [Scope.reach, known]
    | some d =>
      have := h.low s i held d known front j under numbers older
      simp only [Scope.reach, known, Context.depth]
      omega
  rw [numbers, List.drop_append_of_le_length reached]
  simp

/-- What releasing a scope should do, its frame having the number `i`. -/
structure RemovesOwn (u v : Usage) (i : Nat) : Prop where
  base : v.context.base = u.context.base
  /-- the frame is removed with those above it -/
  there : ∀ front under, u.numbers = front ++ i :: under →
    v.numbers = under ∧ v.context.upper = u.context.upper.drop (front.length + 1)
  /-- nothing is removed if the frame has gone before -/
  gone : i ∉ u.numbers → v.context = u.context

/-- **Releasing a scope removes its frame and those above it, if the frame is there.**

However the context has been used before, the base frame and the frames that are older than that of the scope stay.
If the frame of the scope has gone, nothing is removed if and only if the scope has been released or the stack is lower
than it was right after the scope was entered. -/
theorem release_removes_own (base : Frame) (uses : List Use) (n : Nat) (s : Scope) (i : Nat)
    (entered : ((ofBase base).run uses).scopes[n]? = some (s, i)) :
    let u := (ofBase base).run uses
    let v := u.step (.release n)
    (u.numbers.Nodup ∧ u.numbers.length = u.context.upper.length ∧ v.numbers.length = v.context.upper.length) ∧
      v.context.base = u.context.base ∧ (∀ j ∈ u.numbers, j < i → j ∈ v.numbers) ∧
      (∀ front under, u.numbers = front ++ i :: under →
        v.numbers = under ∧ v.context.upper = u.context.upper.drop (front.length + 1)) ∧
      (RemovesOwn u v i ↔ (i ∉ u.numbers → ∀ d, s.depth? = some d → u.context.depth < d)) := by
  intro u v
  have sound : u.Sound := (sound_ofBase base).run uses
  have member : (s, i) ∈ u.scopes := List.mem_of_getElem? entered
  have after : v = { u.reduced (u.context.lower (s.reach u.context)) with scopes := u.scopes.set n (⟨none⟩, i) } :=
    release_eq entered
  rw [sound.reduced_lower] at after
  have base : v.context.base = u.context.base := by
    rw [after]
    rfl
  have there (front under : List Nat) (numbers : u.numbers = front ++ i :: under) :
      v.numbers = under ∧ v.context.upper = u.context.upper.drop (front.length + 1) := by
    rw [after, ← sound.reach member numbers]
    exact ⟨sound.under member numbers, rfl⟩
  have unchanged : v.context = u.context ↔ ∀ d, s.depth? = some d → u.context.depth < d := by
    rw [after]
    refine lower_eq_self_iff.trans ?_
    cases known : s.depth? with
    | none => simp [Scope.reach, known]
    | some d =>
      have := sound.above s i member d known
      simp only [Scope.reach, known, Option.some.injEq, forall_eq', ← List.length_eq_zero_iff, Context.depth]
      omega
  refine ⟨⟨sound.distinct, sound.numbered, (sound.step (.release n)).numbered⟩, base, ?_, there, ?_⟩
  · intro j inside older
    rw [after]
    exact sound.left member inside older
  · exact ⟨fun own gone => unchanged.1 (own.gone gone), fun low => ⟨base, there, fun gone => unchanged.2 (low gone)⟩⟩

/-- The first scope is released before the second one, whose frame goes with it; a third one is entered at the depth of the
first. -/
theorem release_removes_own_crossed :
    let uses : List Use := [.enter [("a", .int 1)], .enter [("b", .int 2)], .push [], .release 0, .enter [("c", .int 3)]]
    let u := (ofBase []).run uses
    u.scopes[1]? = some (⟨some 3⟩, 1) ∧ u.numbers = [3] ∧ RemovesOwn u (u.step (.release 1)) 1 := by
  intro uses u
  have entered : u.scopes[1]? = some (⟨some 3⟩, 1) := rfl
  obtain ⟨-, -, -, -, own⟩ := release_removes_own [] uses 1 ⟨some 3⟩ 1 entered
  refine ⟨entered, rfl, own.2 fun _ d known => ?_⟩
  cases known
  decide

/-- The frame of a scope is popped, and another one pushed to its depth: releasing the scope removes that one. -/
theorem release_removes_other :
    let u := (ofBase []).run [.enter [("x", .int 1)], .pop, .push [("y", .int 2)]]
    let v := u.step (.release 0)
    u.scopes[0]? = some (⟨some 2⟩, 0) ∧ u.numbers = [1] ∧ u.context.get "y" = .int 2 ∧ v.context.get "y" = .undefined ∧
      ¬ RemovesOwn u v 0 := by
  intro u v
  refine ⟨rfl, rfl, rfl, rfl, fun own => ?_⟩
  have same := congrArg (·.depth) (own.gone (by decide))
  exact absurd same (by decide)

end Usage

end Context

end Stencil
