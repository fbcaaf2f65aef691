import Mathlib.Data.Finset.Sort
import Stencil.Proofs.Path.Ends
import Stencil.Proofs.Path.Selection

/-!
# Selecting stays in the list

The selection goes from index to index, by leaps over subtrees, and cuts subtrees out of the list. `Path.select?` is the
selection that looks up ends which were found with the stack, checks each index before it is used, and gives each loop
as many rounds as there are events. It never fails, and its result is that of `Path.select` (`Path.select?_eq`), because
the ends are in the list and not before the event that they belong to: a leap goes on to a later index.
-/

namespace Stencil

namespace Path

/-! ## Selection with checks -/

/-- The event passes the test of a step that leads to elements or texts. -/
def eventPasses (s : Step) (e : Event) : Bool :=
  match s.test with
  | .text => match e with
    | .text .. => true
    | _ => false
  | _ => s.matchesElement e

section

variable (events : List Event) (ends : List Nat)

/-- The indices from `i` up to `stop` of the events that pass a test, gone through like `indices`. There is no result
if an index is not one of the list or the loop does not end in `n` rounds. -/
def visit? (axis : Axis) (test : Event → Bool) (stop : Nat) : Nat → Nat → Option (List Nat)
  | 0, i => if i < stop then none else some []
  | n + 1, i =>
    if i < stop then do
      let e ← events[i]?
      let next ← match axis with
        | .child => ends[i]?.map (· + 1)
        | .descendant => some (i + 1)
      let found ← visit? axis test stop n next
      return if test e then i :: found else found
    else some []

def stepFrom? (s : Step) (node : Nat) : Option (List Nat) :=
  match s.test with
  | .self => events[node]?.map fun e => if eventPasses s e then [node] else []
  | _ => do
    let stop ← ends[node]?
    visit? events ends s.axis (eventPasses s) stop events.length (node + 1)

/-- The nodes that a step leads to as a set, in order. -/
def stepFromAll? (s : Step) (nodes : List Nat) : Option (List Nat) := do
  let found ← nodes.mapM (stepFrom? events ends s)
  return found.flatten.toFinset.sort (· ≤ ·)

def attributeKeys? (test : NodeTest) (node : Nat) : Option (List (Nat × Nat)) :=
  events[node]?.map fun _ => attributeKeys events test node

/-- The events of the subtree at `i`, whose ends have to be in the list. -/
def slice? (i : Nat) : Option (List Event) := do
  let stop ← ends[i]?
  if i ≤ stop + 1 ∧ stop + 1 ≤ events.length then return (events.drop i).take (stop + 1 - i) else none

def follow? : List Step → List Nat → Option (List (Nat × Nat))
  | [], nodes => nodes.mapM fun i => (slice? events ends i).map fun _ => (i, 0)
  | s :: steps, nodes =>
    if s.test.isAttribute then (nodes.mapM (attributeKeys? events s.test)).map List.flatten
    else do follow? steps (← stepFromAll? events ends s nodes)

end

/-- The selection with a check for each index that is used, and a bound on the rounds of each loop. -/
def select? (p : Path) (events : List Event) : Option (List Event) := do
  let ends ← ends? events
  let outermost ← visit? events ends .child Event.isStart events.length events.length 0
  let keys ← p.routes.mapM fun r => follow? events ends r.steps outermost
  return (List.range events.length).flatMap (selectedAt events keys.flatten)

/-! ## No check fails -/

variable {events : List Event} {s : Step} {test : Event → Bool} {stop i node : Nat} {nodes : List Nat}

theorem mapM_some {α β : Type} {f : α → Option β} {g : α → β} {l : List α} (h : ∀ a ∈ l, f a = some (g a)) :
    l.mapM f = some (l.map g) := by
  induction l with
  | nil => rfl
  | cons a l ih =>
    obtain ⟨first, others⟩ := List.forall_mem_cons.1 h
    rw [List.mapM_cons, first, ih others]
    rfl

theorem getElem?_ends (within : i < events.length) :
    ((List.range events.length).map (endIndex events))[i]? = some (endIndex events i) := by
  rw [List.getElem?_map, List.getElem?_range within]
  rfl

theorem indices_done (axis : Axis) (n : Nat) (done : ¬ i < stop) : indices events axis n i stop = [] := by
  cases n with
  | zero => rfl
  | succ n => cases axis <;> rw [indices, if_neg done]

/-- A loop that stops in the list ends, since each round goes on to a later index, and uses indices of the list only. -/
theorem visit?_eq {axis : Axis} {n m : Nat} (within : stop ≤ events.length) (enough : stop - i ≤ n) (most : stop - i ≤ m) :
    visit? events ((List.range events.length).map (endIndex events)) axis test stop n i =
      some ((indices events axis m i stop).filter fun j => events[j]?.any test) := by
  induction n generalizing i m with
  | zero =>
    have done : ¬ i < stop := by omega
    rw [visit?, if_neg done, indices_done axis m done]
    rfl
  | succ n ih =>
    by_cases goesOn : i < stop
    · obtain ⟨m, rfl⟩ : ∃ k, m = k + 1 := ⟨m - 1, by omega⟩
      have inside : i < events.length := Nat.lt_of_lt_of_le goesOn within
      have later := le_endIndex events i
      rw [visit?, if_pos goesOn, List.getElem?_eq_getElem inside]
      cases axis with
      | child =>
        rw [getElem?_ends inside, indices, if_pos goesOn, List.filter_cons, List.getElem?_eq_getElem inside]
        change (visit? _ _ _ _ _ n (endIndex events i + 1)).bind _ = _
        rw [ih (m := m) (by omega) (by omega)]
        cases passed : test events[i] <;> simp [passed]
      | descendant =>
        rw [indices, if_pos goesOn, List.filter_cons, List.getElem?_eq_getElem inside]
        change (visit? _ _ _ _ _ n (i + 1)).bind _ = _
        rw [ih (m := m) (by omega) (by omega)]
        cases passed : test events[i] <;> simp [passed]
    · rw [visit?, if_neg goesOn, indices_done axis m goesOn]
      rfl

theorem passes_eq (s : Step) (i : Nat) : passes events s i = events[i]?.any (eventPasses s) := by
  unfold passes eventPasses
  cases events[i]? <;> rfl

theorem lt_of_mem_stepFrom (h : i ∈ stepFrom events s node) : i < events.length := by
  have passed : passes events s i = true := by
    unfold stepFrom at h
    split at h
    · split at h
      next passed => rwa [List.mem_singleton.1 h]
      next => cases h
    · exact (List.mem_filter.1 h).2
  obtain ⟨e, found, -⟩ := noEnds_passes passed
  exact (List.getElem?_eq_some_iff.1 found).1

theorem stepFrom?_eq (s : Step) (inside : node < events.length) :
    stepFrom? events ((List.range events.length).map (endIndex events)) s node = some (stepFrom events s node) := by
  have stops := endIndex_lt inside
  have along : visit? events ((List.range events.length).map (endIndex events)) s.axis (eventPasses s)
      (endIndex events node) events.length (node + 1) = some ((indices events s.axis (endIndex events node - node)
        (node + 1) (endIndex events node)).filter (passes events s)) := by
    rw [visit?_eq (m := endIndex events node - node) (by omega) (by omega) (by omega), funext (passes_eq s)]
  unfold stepFrom? stepFrom
  cases s.test with
  | self =>
    dsimp only
    rw [passes_eq, List.getElem?_eq_getElem inside]
    rfl
  | _ =>
    rw [getElem?_ends inside]
    exact along

/-- A set of numbers in order. -/
theorem sort_toFinset_eq {found : List Nat} {n : Nat} (within : ∀ j ∈ found, j < n) :
    found.toFinset.sort (· ≤ ·) = (List.range n).filter found.contains := by
  have same : found.toFinset = ((List.range n).filter found.contains).toFinset := by
    ext j
    simpa using within j
  rw [same]
  exact (List.toFinset_sort _ (List.nodup_range.filter _)).2 (List.pairwise_le_range.filter _)

theorem stepFromAll?_eq (s : Step) (inside : ∀ i ∈ nodes, i < events.length) :
    stepFromAll? events ((List.range events.length).map (endIndex events)) s nodes = some (stepFromAll events s nodes) := by
  unfold stepFromAll? stepFromAll
  rw [mapM_some fun i hi => stepFrom?_eq s (inside i hi)]
  refine congrArg some (sort_toFinset_eq fun j hj => ?_)
  obtain ⟨i, -, led⟩ := List.mem_flatMap.1 hj
  exact lt_of_mem_stepFrom led

theorem slice?_eq (inside : i < events.length) :
    slice? events ((List.range events.length).map (endIndex events)) i = some (subtree events i) := by
  have starts := le_endIndex events i
  have stops := endIndex_lt inside
  unfold slice?
  rw [getElem?_ends inside]
  exact if_pos ⟨by omega, by omega⟩

theorem follow?_eq (steps : List Step) (inside : ∀ i ∈ nodes, i < events.length) :
    follow? events ((List.range events.length).map (endIndex events)) steps nodes = some (follow events steps nodes) := by
  induction steps generalizing nodes with
  | nil =>
    rw [follow?, follow]
    refine mapM_some fun i hi => ?_
    rw [slice?_eq (inside i hi)]
    rfl
  | cons s steps ih =>
    rw [follow?, follow]
    split
    next =>
      have keys : ∀ i ∈ nodes, attributeKeys? events s.test i = some (attributeKeys events s.test i) := by
        intro i hi
        rw [attributeKeys?, List.getElem?_eq_getElem (inside i hi)]
        rfl
      rw [mapM_some keys, List.flatMap_def]
      rfl
    next =>
      rw [stepFromAll?_eq s inside]
      refine ih fun i hi => ?_
      exact List.mem_range.1 (List.mem_filter.1 hi).1

theorem select?_eq (p : Path) (events : List Event) : p.select? events = some (p.select events) := by
  have outermost : visit? events ((List.range events.length).map (endIndex events)) .child Event.isStart events.length
      events.length 0 = some (topLevel events) := visit?_eq (Nat.le_refl _) (Nat.le_refl _) (Nat.le_refl _)
  have inside : ∀ i ∈ topLevel events, i < events.length := by
    intro i hi
    obtain ⟨e, found, -⟩ := (Option.any_eq_true ..).1 (List.mem_filter.1 hi).2
    exact (List.getElem?_eq_some_iff.1 found).1
  have keys := mapM_some (l := p.routes) fun r _ => follow?_eq r.steps inside
  unfold select?
  rw [ends?_eq]
  change (visit? _ _ _ _ _ _ _).bind _ = _
  rw [outermost]
  change Option.bind (p.routes.mapM _) _ = _
  rw [keys]
  rfl

/-- **The ranges of subtrees are sound for any events.** The subtree of an event ends at or behind it and in the list,
and two subtrees are nested or apart. If the tags of the list pair up, the subtree of a start tag ends with the one end
tag that closes it. The ends are those that the stack gives, and whatever is selected with them, no index is out of
range and each loop ends. -/
theorem subtrees_within (events : List Event) :
    (∀ i, i < events.length → i ≤ endIndex events i ∧ endIndex events i < events.length) ∧
    (∀ i j, endIndex events i < j ∨ endIndex events j < i ∨
      (i ≤ j ∧ endIndex events j ≤ endIndex events i) ∨ (j ≤ i ∧ endIndex events i ≤ endIndex events j)) ∧
    (Event.Nested events → ∀ i e, events[i]? = some e → e.isStart = true →
      ∀ j, Closes events i j ↔ j = endIndex events i) ∧
    ends? events = some ((List.range events.length).map (endIndex events)) ∧
    ∀ p : Path, p.select? events = some (p.select events) := by
  refine ⟨fun i within => ⟨le_endIndex events i, endIndex_lt within⟩, endIndex_nested events, ?_, ends?_eq events,
    fun p => select?_eq p events⟩
  intro nested i e found start j
  exact (closes_iff nested).trans (and_iff_right ⟨e, found, start⟩)

/-- A stray end tag before an element that is closed and two that are not. -/
def stray : List Event :=
  [.endTag ⟨1, 0⟩ (.plain "z"), .startTag ⟨1, 4⟩ (.plain "a") [], .startTag ⟨1, 7⟩ (.plain "b") [], .text ⟨1, 10⟩ "T",
    .endTag ⟨1, 11⟩ (.plain "b"), .startTag ⟨1, 15⟩ (.plain "c") [], .comment ⟨1, 18⟩ "C"]

/-- The element that is closed is well nested, but not all of these events are. -/
theorem subtrees_within_stray :
    ends? stray = some [0, 6, 4, 3, 4, 6, 6] ∧ ¬ Event.Nested stray ∧ (∀ p : Path, p.select? stray = some (p.select stray)) ∧
    Event.Nested ((stray.drop 2).take 3) ∧ ∀ j, Closes ((stray.drop 2).take 3) 0 j ↔ j = 2 := by
  obtain ⟨-, -, -, -, selected⟩ := subtrees_within stray
  have nested : Event.Nested ((stray.drop 2).take 3) := by decide
  obtain ⟨-, -, closes, -, -⟩ := subtrees_within ((stray.drop 2).take 3)
  exact ⟨by decide, by decide, selected, nested, closes nested 0 _ rfl rfl⟩

end Path

end Stencil
