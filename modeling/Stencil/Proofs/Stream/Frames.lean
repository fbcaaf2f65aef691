import Stencil.Proofs.Value.Stock

/-!
# Frames over a context

While an expansion goes on, the frames it started from lie below those pushed since
(`Context.Above`). Only the top one of them may change, and only by the functions that `def`
directives bind (`Frame.Defines`).
-/

namespace Stencil

namespace Frame

/-- The second frame has, on top of the bindings of the first one, functions that `def` directives
bind under their names. -/
inductive Defines : Frame → Frame → Prop
  | refl (f : Frame) : Defines f f
  | bind {f g : Frame} (h : Defines f g) (id : Nat) (signature : Signature) (body : BodyId) :
      Defines f (g.bind signature.name (.function ⟨id, .template signature body⟩))

theorem find_bind (f : Frame) (name key : Text) (v : Value) :
    Entries.find? key (f.bind name v) = if name == key then some v else Entries.find? key f := by
  induction f with
  | nil => by_cases h : name == key <;> simp [bind, Entries.find?, h]
  | cons e es ih =>
    obtain ⟨k, w⟩ := e
    simp only [Entries.find?] at ih
    by_cases hk : k == name
    · rw [beq_iff_eq] at hk
      subst hk
      by_cases h : k == key <;> simp [bind, Entries.find?, h]
    · by_cases h : k == key
      · have other : (name == key) = false := by
          rw [beq_iff_eq] at h
          exact beq_false_of_ne fun same => hk (by rw [h, same, beq_self_eq_true])
        simp [bind, Entries.find?, hk, h, other]
      · simp [bind, Entries.find?, hk, h, ih]

/-- A name that has another binding than before is that of a function bound by a `def` directive. -/
theorem Defines.find {f g : Frame} (h : Defines f g) (name : Text) :
    Entries.find? name g = Entries.find? name f ∨ ∃ id signature body, signature.name = name ∧
      Entries.find? name g = some (.function ⟨id, .template signature body⟩) := by
  induction h with
  | refl => exact .inl rfl
  | bind _ id signature body ih =>
    rw [find_bind]
    split
    · rename_i same
      exact .inr ⟨id, signature, body, by simpa using same, rfl⟩
    · exact ih

end Frame

namespace Context

theorem depth_eq (c : Context) : c.depth = c.frames.length := by simp [depth, frames]

theorem frames_push (c : Context) (f : Frame) : (c.push f).frames = f :: c.frames := rfl

theorem frames_releaseFrom {c : Context} {d : Nat} (h : 1 < d) :
    (c.releaseFrom d).frames = c.frames.drop (c.depth + 1 - d) := by
  have upper : c.depth + 1 - d ≤ c.upper.length := by simp only [depth]; omega
  simp only [releaseFrom, frames, List.drop_append_of_le_length upper]

theorem depth_releaseFrom {c : Context} {d : Nat} (h : 1 < d) : (c.releaseFrom d).depth = min c.depth (d - 1) := by
  simp only [depth, releaseFrom, List.length_drop]
  omega

theorem releaseFrom_push (c : Context) (f : Frame) : (c.push f).releaseFrom (c.depth + 1) = c := by
  simp [releaseFrom, push, depth]

theorem frames_set {c : Context} {top : Frame} {lower : List Frame} (h : c.frames = top :: lower) (name : Text)
    (v : Value) : (c.set name v).frames = top.bind name v :: lower := by
  unfold set
  split
  · rename_i none
    simp only [frames, none, List.nil_append, List.cons.injEq] at h ⊢
    exact ⟨by rw [h.1], h.2⟩
  · rename_i f fs upper
    simp only [frames, upper, List.cons_append, List.cons.injEq] at h ⊢
    exact ⟨by rw [h.1], h.2⟩

/-- Under the frames pushed since, `c'` has the frames of `c`; the top one of these may have got
functions that `def` directives bind. -/
def Above (c : Context) (pushed : List Frame) (c' : Context) : Prop :=
  ∃ top top' lower, c.frames = top :: lower ∧ Frame.Defines top top' ∧ c'.frames = pushed ++ top' :: lower

variable {c c' : Context} {pushed : List Frame}

theorem Above.refl (c : Context) : Above c [] c := by
  cases h : c.frames with
  | nil => simp [frames] at h
  | cons top lower => exact ⟨top, top, lower, h, .refl top, h⟩

theorem Above.depth (h : Above c pushed c') : c'.depth = pushed.length + c.depth := by
  obtain ⟨top, top', lower, before, -, after⟩ := h
  simp only [depth_eq, before, after, List.length_append, List.length_cons]

theorem Above.push (h : Above c pushed c') (f : Frame) : Above c (f :: pushed) (c'.push f) := by
  obtain ⟨top, top', lower, before, defines, after⟩ := h
  exact ⟨top, top', lower, before, defines, by rw [frames_push, after]; rfl⟩

/-- Frames that are removed by a depth beyond that of the first context have been pushed since. -/
theorem Above.releaseFrom {d : Nat} (h : Above c pushed c') (deeper : c.depth < d) :
    ∃ pushed', Above c pushed' (c'.releaseFrom d) := by
  have positive : 1 < d := Nat.lt_of_le_of_lt (by simp [Context.depth]) deeper
  have depth := h.depth
  obtain ⟨top, top', lower, before, defines, after⟩ := h
  refine ⟨pushed.drop (c'.depth + 1 - d), top, top', lower, before, defines, ?_⟩
  rw [frames_releaseFrom positive, after, List.drop_append_of_le_length (by omega)]

/-- A function that a `def` directive binds goes into a frame pushed since, or into the top one. -/
theorem Above.define (h : Above c pushed c') (id : Nat) (signature : Signature) (body : BodyId) :
    ∃ pushed', Above c pushed' (c'.set signature.name (.function ⟨id, .template signature body⟩)) := by
  obtain ⟨top, top', lower, before, defines, after⟩ := h
  cases pushed with
  | nil => exact ⟨[], top, _, lower, before, defines.bind id signature body, frames_set after _ _⟩
  | cons f fs => exact ⟨_ :: fs, top, top', lower, before, defines, frames_set after _ _⟩

end Context

end Stencil
