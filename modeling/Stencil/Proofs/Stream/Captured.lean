import Stencil.Proofs.Stream.Matched
import Stencil.Proofs.Stream.ScopedStep

/-!
# Applying directives with some bodies captured already

A directive whose slot is full drops its element, and one whose slot is empty reads the element first and
fills the slot. If what is read is known beforehand, both come to the same in the end. So a step from a
store that is ahead is matched by one or several steps from the other (`Stream.step_keeps`).
-/

namespace Stencil

variable {known : Known} {full : BodyId → Prop} {bodies : List (BodyId × List Event)} {k : Nat} {d : Directive}
  {rest : List Directive} {read es : List Event} {u v : Stream} {s r : Store} {b : BodyId}

/-! ## Capturing -/

namespace Store

theorem captured_cons (s : Store) (b b' : BodyId) (es : List Event) (bodies : List (BodyId × List Event)) :
    (s.withBodies ((b, es) :: bodies)).captured? b' = if b = b' then some es else (s.withBodies bodies).captured? b' := by
  unfold captured? withBodies
  by_cases same : b = b'
  · simp [same]
  · simp [same]

theorem empty_of_not_full (h : ¬ s.full b) : s.captured? b = none := by simpa [full] using h

theorem capture_of_empty (h : s.captured? b = none) (es : List Event) :
    s.capture b es = s.withBodies ((b, es) :: s.bodies) := by
  unfold capture
  rw [h]
  rfl

theorem capture_of_full (h : s.full b) (es : List Event) : s.capture b es = s := if_pos h

theorem captured_capture (h : s.captured? b = none) (es : List Event) (b' : BodyId) :
    (s.capture b es).captured? b' = if b = b' then some es else s.captured? b' := by
  rw [capture_of_empty h]
  exact captured_cons s b b' es s.bodies

theorem full_capture (s : Store) (b : BodyId) (es : List Event) {b' : BodyId} (h : s.full b') :
    (s.capture b es).full b' := by
  by_cases isFull : s.full b
  · rwa [capture_of_full isFull]
  · have empty : s.captured? b = none := empty_of_not_full isFull
    unfold full
    rw [captured_capture empty]
    split
    · rfl
    · exact h

theorem full_capture_self (s : Store) (b : BodyId) (es : List Event) : (s.capture b es).full b := by
  by_cases isFull : s.full b
  · exact full_capture s b es isFull
  · have empty : s.captured? b = none := empty_of_not_full isFull
    unfold full
    rw [captured_capture empty, if_pos rfl]
    rfl

theorem Faithful.capture (h : s.Faithful known) (kept : ∀ body, known b = some body → body = es)
    (events : Event.AllFaithful known es) : (s.capture b es).Faithful known := by
  by_cases isFull : s.full b
  · rwa [capture_of_full isFull]
  · have empty : s.captured? b = none := empty_of_not_full isFull
    have larger := fun b' (isFull : s.full b') => full_capture s b es isFull
    have captured := captured_capture empty es
    rw [capture_of_empty empty] at larger captured ⊢
    refine ⟨?_, ?_, h.context.mono (Stock.callable_mono larger), fun id live => (h.replay id live).mono larger,
      h.streams, h.holdings, h.numbers⟩
    · intro b' es' found body isKnown
      rw [captured] at found
      split at found
      · rename_i same
        cases found
        exact kept body (same ▸ isKnown)
      · exact h.kept b' es' found body isKnown
    · intro b' es' found
      rw [captured] at found
      split at found
      · cases found
        exact events
      · exact h.bodies b' es' found

/-- The store captures events that the one ahead of it captures too, or has captured before. -/
theorem Ahead.fill {after : List (BodyId × List Event)} (h : Ahead known bodies s) (empty : s.captured? b = none)
    (filled : ∀ b', (s.withBodies after).captured? b' = if b = b' then some es else (s.withBodies bodies).captured? b')
    (kept : ∀ body, known b = some body → body = es) (events : Event.AllFaithful known es) :
    Ahead known after (s.capture b es) := by
  have first : ∀ b', ((s.capture b es).withBodies after).captured? b' =
      if b = b' then some es else (s.withBodies bodies).captured? b' := filled
  have second := captured_capture empty es
  refine ⟨?_, ?_, ?_, ?_, h.faithful.capture kept events⟩
  · intro b' es' found
    rw [second] at found
    rw [first]
    split at found
    · rename_i same
      rw [if_pos same, found]
    · rename_i other
      rw [if_neg other]
      exact h.less b' es' found
  · intro b' unknown
    rw [first, second]
    split
    · rfl
    · exact h.others b' unknown
  · intro b' es' found body isKnown
    rw [first] at found
    split at found
    · rename_i same
      cases found
      exact kept body (same ▸ isKnown)
    · exact h.kept b' es' found body isKnown
  · intro b' es' found
    rw [first] at found
    split at found
    · cases found
      exact events
    · exact h.events b' es' found

/-- Both stores capture the events. -/
theorem Ahead.capture (h : Ahead known bodies s) (empty : (s.withBodies bodies).captured? b = none)
    (kept : ∀ body, known b = some body → body = es) (events : Event.AllFaithful known es) :
    (s.withBodies bodies).capture b es = (s.capture b es).withBodies ((b, es) :: bodies) ∧
      Ahead known ((b, es) :: bodies) (s.capture b es) := by
  have none : s.captured? b = none := by
    cases found : s.captured? b with
    | none => rfl
    | some es => rw [h.less b es found] at empty; cases empty
  constructor
  · rw [capture_of_empty empty, capture_of_empty none]
    rfl
  · exact h.fill none (fun b' => captured_cons s b b' es bodies) kept events

/-- The other store captures the events that the one ahead has captured before. -/
theorem Ahead.catchUp (h : Ahead known bodies s) (isFull : (s.withBodies bodies).full b) (isKnown : known b = some es) :
    (s.withBodies bodies).capture b [] = (s.capture b es).withBodies bodies ∧ Ahead known bodies (s.capture b es) := by
  have kept : ∀ body, known b = some body → body = es := fun body same => Option.some.inj (same.symm.trans isKnown)
  obtain ⟨found, captured⟩ := Option.isSome_iff_exists.1 isFull
  obtain rfl : es = found := h.kept b found captured es isKnown
  constructor
  · rw [capture_of_full isFull]
    unfold Store.capture
    split <;> rfl
  · by_cases filled : s.full b
    · rwa [capture_of_full filled]
    · refine h.fill (empty_of_not_full filled) (fun b' => ?_) kept (h.events b es captured)
      split
      · rename_i same
        rw [← same]
        exact captured
      · rfl

end Store

open Store Advance

namespace Stream

/-! ## Directives to be applied -/

/-- A directive that looks at the context is followed by none with a known slot. -/
theorem Applying.free (h : Applying known (d :: rest) read u) (looks : d.isStill = false) : Directive.Free known rest := by
  rcases h with free | ⟨es, -, settled, -⟩
  · exact free.tail
  · cases settled with
    | free free => exact free.tail
    | still still => rw [looks] at still; cases still

/-- A directive that does not look at the context and need not read the element is applied at once. -/
theorem Applying.still (h : Applying known (d :: rest) read u) (slotless : d.slot? = none)
    (once : ∀ kind e?, kind.effect = .twice → d ≠ .extension kind e?) (left : ∀ es, u.remaining = some es → v.remaining = some (d.still es)) :
    Applying known rest [] v := by
  rcases h with free | ⟨es, all, settled, fresh⟩
  · exact .inl free.tail
  · have unread : read = [] := by
      rcases fresh with unread | ⟨d', hd, gathers⟩
      · exact unread
      · cases hd
        rcases gathers with slot | ⟨kind, e?, twice, same⟩
        · rw [slotless] at slot
          cases slot
        · exact absurd same (once kind e? twice)
    subst unread
    cases settled with
    | free free => exact .inl free.tail
    | still _ _ settled => exact .inr ⟨_, left es all, settled, .inl rfl⟩

/-- What a directive with a slot captures, if something is known of it. -/
theorem Applying.kept (h : Applying known (d :: rest) read u) (slot : d.slot? = some b) {body : List Event}
    (isKnown : known b = some body) : ∃ es, u.remaining = some es ∧ body = read.reverse ++ es := by
  have known' : ¬ Directive.Free known (d :: rest) := fun free => by
    have unknown := free d List.mem_cons_self b slot
    rw [isKnown] at unknown
    cases unknown
  rcases h with free | ⟨es, all, settled, -⟩
  · exact absurd free known'
  · cases settled with
    | free free => exact absurd free known'
    | still _ kept => exact ⟨es, all, kept b slot body isKnown⟩

/-- Once the element has been captured, the other directives are applied to nothing. -/
theorem Applying.dropped (h : Applying known (d :: rest) read u) (slot : d.slot? = some b) :
    Applying known rest [] .empty := by
  rcases h with free | ⟨es, all, settled, -⟩
  · exact .inl free.tail
  · cases settled with
    | free free => exact .inl free.tail
    | still _ _ settled =>
      have nothing : d.still (read.reverse ++ es) = [] := by
        cases d with
        | define | capture => rfl
        | _ => cases slot
      rw [nothing] at settled
      exact .inr ⟨[], rfl, settled, .inl rfl⟩

/-- One more event of the element is read. -/
theorem Applying.step (h : Applying known (d :: rest) read u) (gathers : Gathers d) :
    (∀ v r, step k u s = .skip v r → Applying known (d :: rest) read v) ∧
      (∀ e v r, step k u s = .yield e v r → Applying known (d :: rest) (e :: read) v) ∧
      (∀ v r, step k u s = .done v r → Directive.Free known (d :: rest) ∨
        Directive.Settled known (d :: rest) read.reverse) := by
  rcases h with free | ⟨es, all, settled, -⟩
  · exact ⟨fun _ _ _ => .inl free, fun _ _ _ _ => .inl free, fun _ _ _ => .inl free⟩
  · have reads := step_remaining (k := k) (s := s) all
    refine ⟨?_, ?_, ?_⟩
    · intro v r next
      rw [next] at reads
      cases reads with
      | skip left => exact .inr ⟨_, left, settled, .inr ⟨d, rfl, gathers⟩⟩
    · intro e v r next
      rw [next] at reads
      cases reads with
      | yield left => exact .inr ⟨_, left, by simpa using settled, .inr ⟨d, rfl, gathers⟩⟩
    · intro v r next
      rw [next] at reads
      cases reads with
      | done left => exact .inr (by simpa using settled)

end Stream

end Stencil
