import Stencil.Path.Select
import Stencil.Proofs.Document.Pairing

/-!
# What paths select

A path selects events of the list it is applied to, and the texts of attributes. From events whose tags
are paired it selects such events again (`Path.paired_select`).
-/

namespace Stencil

namespace Path

theorem mem_of_mem_subtree {events : List Event} {i : Nat} {e : Event} (h : e ∈ subtree events i) : e ∈ events :=
  List.mem_of_mem_drop (List.mem_of_mem_take h)

theorem mem_selectedAt {events : List Event} {keys : List (Nat × Nat)} {i : Nat} {e : Event}
    (h : e ∈ selectedAt events keys i) : e ∈ events ∨ ∃ d ∈ events, ∃ t, e = .text d.position t := by
  simp only [selectedAt, List.mem_append, List.mem_map, List.mem_filter] at h
  rcases h with whole | ⟨a, ⟨there, -⟩, rfl⟩
  · split at whole
    · exact .inl (mem_of_mem_subtree whole)
    · cases whole
  · unfold attributesAt at there
    split at there
    · rename_i p name as found
      exact .inr ⟨_, List.mem_of_getElem? found, a.1.text, by rw [found]; rfl⟩
    · cases there

/-- What a path selects is among the events, or the text of an attribute, at the place of its tag. -/
theorem mem_select {p : Path} {events : List Event} {e : Event} (h : e ∈ p.select events) :
    e ∈ events ∨ ∃ d ∈ events, ∃ t, e = .text d.position t := by
  obtain ⟨i, -, selected⟩ := List.mem_flatMap.1 h
  exact mem_selectedAt selected

/-! ## Paired tags -/

open Event

/-- An element ends where its own end tag is. -/
theorem pairAll_extent {es : List Event} {n : Text} {ns outer : List Text} (h : pairAll (ns ++ n :: outer) es = some []) :
    pairAll (ns ++ [n]) (es.take (extent ns.length es)) = some [] := by
  induction es generalizing ns with
  | nil => simp at h
  | cons e es ih =>
    obtain ⟨mid, first, rest⟩ := pairAll_cons_some h
    cases e with
    | startTag p name as =>
      cases first
      have inner : pairAll (name.qualified :: ns ++ [n]) _ = some [] := ih rest
      simp only [extent, isStart, if_true, Nat.add_comm 1, List.take_succ_cons]
      exact inner
    | endTag p name =>
      have closes := pair_endTag first
      cases ns with
      | nil =>
        simp only [List.nil_append, List.cons.injEq] at closes
        simp [extent, isStart, isEnd, closes.1]
      | cons m ns =>
        simp only [List.cons_append, List.cons.injEq] at closes
        obtain ⟨rfl, rfl⟩ := closes
        have inner := ih rest
        simp only [extent, isStart, isEnd, if_true, Bool.false_eq_true, if_false, List.length_cons, Nat.add_comm 1,
          List.take_succ_cons]
        rw [List.cons_append, pairAll_cons, pair_endTag_self]
        exact inner
    | _ =>
      cases first
      have inner := ih rest
      simp only [extent, isStart, isEnd, Bool.false_eq_true, if_false, Nat.add_comm 1, List.take_succ_cons]
      exact inner

/-- The subtree of an event that is no end tag is paired. -/
theorem paired_subtree {events : List Event} (h : Paired events) {i : Nat} {e : Event} (found : events[i]? = some e)
    (noEnd : e.isEnd = false) : Paired (subtree events i) := by
  obtain ⟨inBounds, rfl⟩ := List.getElem?_eq_some_iff.1 found
  have split : events.drop i = events[i] :: events.drop (i + 1) := List.drop_eq_getElem_cons inBounds
  unfold subtree endIndex
  rw [found, split]
  by_cases start : events[i].isStart = true
  · have whole : pairAll [] (events.take i ++ events.drop i) = some [] := by rwa [List.take_append_drop]
    rw [pairAll_append] at whole
    obtain ⟨ns, -, rest⟩ := Option.bind_eq_some_iff.1 whole
    rw [split] at rest
    obtain ⟨mid, first, rest⟩ := pairAll_cons_some rest
    generalize events[i] = tag at start first ⊢
    cases tag with
    | startTag p name as =>
      cases first
      have inner : pairAll ([] ++ [name.qualified]) _ = some [] := pairAll_extent rest
      simp only [start, if_true]
      rw [show i + extent 0 (events.drop (i + 1)) + 1 - i = extent 0 (events.drop (i + 1)) + 1 by omega,
        List.take_succ_cons]
      exact inner
    | _ => cases start
  · simp only [start, Bool.false_eq_true, if_false, show i + 1 - i = 1 by omega, List.take_succ_cons, List.take_zero]
    exact paired_leaves (by simpa [noEnd] using start)

/-- No end tag is among the nodes. -/
def NoEnds (events : List Event) (nodes : List Nat) : Prop :=
  ∀ i ∈ nodes, ∃ e, events[i]? = some e ∧ e.isEnd = false

theorem noEnds_passes {events : List Event} {s : Step} {i : Nat} (h : passes events s i = true) :
    ∃ e, events[i]? = some e ∧ e.isEnd = false := by
  unfold passes at h
  split at h
  · rename_i e found
    refine ⟨e, found, ?_⟩
    cases e with
    | endTag => split at h <;> cases h
    | _ => rfl
  · cases h

theorem noEnds_stepFromAll (events : List Event) (s : Step) (nodes : List Nat) : NoEnds events (stepFromAll events s nodes) := by
  intro i hi
  have found := (List.mem_filter.1 hi).2
  simp only [List.contains_iff_mem, List.mem_flatMap] at found
  obtain ⟨node, -, led⟩ := found
  unfold stepFrom at led
  split at led
  · split at led
    · rename_i passed
      rw [List.mem_singleton.1 led]
      exact noEnds_passes passed
    · cases led
  · exact noEnds_passes (List.mem_filter.1 led).2

theorem noEnds_follow {events : List Event} {steps : List Step} {nodes : List Nat} (h : NoEnds events nodes) {i : Nat}
    (hi : (i, 0) ∈ follow events steps nodes) : ∃ e, events[i]? = some e ∧ e.isEnd = false := by
  induction steps generalizing nodes with
  | nil =>
    obtain ⟨j, hj, same⟩ := List.mem_map.1 hi
    cases same
    exact h i hj
  | cons s steps ih =>
    rw [follow] at hi
    split at hi
    · simp [attributeKeys] at hi
    · exact ih (noEnds_stepFromAll events s nodes) hi

theorem noEnds_topLevel (events : List Event) : NoEnds events (topLevel events) := by
  intro i hi
  have start := (List.mem_filter.1 hi).2
  rw [Option.any_eq_true] at start
  obtain ⟨e, found, start⟩ := start
  refine ⟨e, found, ?_⟩
  cases e with
  | startTag => rfl
  | _ => cases start

/-- **What a path selects from paired events is paired.** -/
theorem paired_select {p : Path} {events : List Event} (h : Paired events) : Paired (p.select events) := by
  refine paired_flatMap fun i _ => ?_
  unfold selectedAt
  refine Paired.append ?_ (paired_leaves ?_)
  · split
    · rename_i chosen
      simp only [List.contains_iff_mem, List.mem_flatMap] at chosen
      obtain ⟨r, -, chosen⟩ := chosen
      obtain ⟨e, found, noEnd⟩ := noEnds_follow (noEnds_topLevel events) chosen
      exact paired_subtree h found noEnd
    · rfl
  · intro e he
    obtain ⟨a, -, rfl⟩ := List.mem_map.1 he
    exact ⟨rfl, rfl⟩

end Path

end Stencil
