import Stencil.Proofs.Path.Nodes

/-!
# Where subtrees end

The tags of a list need not pair up. Still the subtree of each event ends in the list (`Path.endIndex_lt`), and an event
in a subtree has its own subtree in there (`Path.endIndex_le`). An end tag that closes a start tag, with tags between
them that pair up, is where the subtree of the start tag ends (`Path.endIndex_of_closes`).

The ends are found in one go with a stack of the start tags that are open (`Path.ends?_eq`). The invariant is that the
subtree of an open start tag ends where counting through the events that are left ends, as many levels deep as there
are start tags above it on the stack. A stray end tag finds the stack empty, and a start tag that is never closed is
still on it in the end, with no events left to count.
-/

namespace Stencil

namespace Path

variable {events es : List Event} {e : Event} {i j k depth : Nat}

/-! ## Counting tags -/

theorem extent_start (depth : Nat) (start : e.isStart = true) (es : List Event) :
    extent depth (e :: es) = extent (depth + 1) es + 1 := by
  rw [extent.eq_def, Nat.add_comm]
  exact if_pos start

theorem extent_end_zero (noStart : e.isStart = false) (ends : e.isEnd = true) (es : List Event) :
    extent 0 (e :: es) = 1 := by
  simp [extent, noStart, ends]

theorem extent_end_succ (depth : Nat) (noStart : e.isStart = false) (ends : e.isEnd = true) (es : List Event) :
    extent (depth + 1) (e :: es) = extent depth es + 1 := by
  simp [extent, noStart, ends, Nat.add_comm]

theorem extent_leaf (depth : Nat) (noStart : e.isStart = false) (noEnd : e.isEnd = false) (es : List Event) :
    extent depth (e :: es) = extent depth es + 1 := by
  rw [extent.eq_def, Nat.add_comm]
  simp [noStart, noEnd]

/-- An event opens an element, closes one or does neither. -/
theorem tag_cases (e : Event) : e.isStart = true ∨ (e.isStart = false ∧ e.isEnd = true) ∨
    (e.isStart = false ∧ e.isEnd = false) := by
  cases e <;> simp [Event.isStart, Event.isEnd]

theorem extent_le_length (depth : Nat) (es : List Event) : extent depth es ≤ es.length := by
  induction es generalizing depth with
  | nil => exact Nat.le_refl _
  | cons e es ih =>
    rw [List.length_cons]
    obtain start | ⟨noStart, ends⟩ | ⟨noStart, noEnd⟩ := tag_cases e
    · rw [extent_start depth start]
      exact Nat.succ_le_succ (ih _)
    · cases depth with
      | zero =>
        rw [extent_end_zero noStart ends]
        exact Nat.le_add_left 1 _
      | succ depth =>
        rw [extent_end_succ depth noStart ends]
        exact Nat.succ_le_succ (ih _)
    · rw [extent_leaf depth noStart noEnd]
      exact Nat.succ_le_succ (ih _)

/-- It takes longer to get out of an element that is deeper. -/
theorem extent_le_succ (depth : Nat) (es : List Event) : extent depth es ≤ extent (depth + 1) es := by
  induction es generalizing depth with
  | nil => exact Nat.le_refl _
  | cons e es ih =>
    obtain start | ⟨noStart, ends⟩ | ⟨noStart, noEnd⟩ := tag_cases e
    · rw [extent_start depth start, extent_start _ start]
      exact Nat.succ_le_succ (ih _)
    · rw [extent_end_succ depth noStart ends]
      cases depth with
      | zero =>
        rw [extent_end_zero noStart ends]
        exact Nat.le_add_left 1 _
      | succ depth =>
        rw [extent_end_succ depth noStart ends]
        exact Nat.succ_le_succ (ih _)
    · rw [extent_leaf depth noStart noEnd, extent_leaf _ noStart noEnd]
      exact Nat.succ_le_succ (ih _)

theorem extent_zero_le (depth : Nat) (es : List Event) : extent 0 es ≤ extent depth es := by
  induction depth with
  | zero => exact Nat.le_refl _
  | succ d ih => exact Nat.le_trans ih (extent_le_succ d es)

/-- An element that starts before the end of another one ends not later. -/
theorem extent_inner (found : es[k]? = some e) (start : e.isStart = true) (inside : k < extent depth es) :
    k + 1 + extent 0 (es.drop (k + 1)) ≤ extent depth es := by
  induction es generalizing depth k with
  | nil => cases found
  | cons d es ih =>
    cases k with
    | zero =>
      cases found
      rw [extent_start depth start, Nat.zero_add, Nat.add_comm]
      exact Nat.succ_le_succ (extent_zero_le _ _)
    | succ k =>
      -- counting goes over the first event, whatever it is
      have later {n : Nat} (whole : extent depth (d :: es) = extent n es + 1) :
          k + 1 + 1 + extent 0 ((d :: es).drop (k + 1 + 1)) ≤ extent depth (d :: es) := by
        have := ih found (show k < extent n es by omega)
        rw [List.drop_succ_cons]
        omega
      obtain start | ⟨noStart, ends⟩ | ⟨noStart, noEnd⟩ := tag_cases d
      · exact later (extent_start depth start es)
      · cases depth with
        | zero =>
          rw [extent_end_zero noStart ends] at inside
          omega
        | succ depth => exact later (extent_end_succ depth noStart ends es)
      · exact later (extent_leaf depth noStart noEnd es)

/-! ## Ends -/

theorem endIndex_start (found : events[i]? = some e) (start : e.isStart = true) :
    endIndex events i = i + extent 0 (events.drop (i + 1)) := by
  simp only [endIndex, found, if_pos start]

theorem endIndex_other (other : ∀ e, events[i]? = some e → e.isStart = false) : endIndex events i = i := by
  unfold endIndex
  split
  next e found => rw [if_neg (by simp [other e found])]
  next => rfl

theorem le_endIndex (events : List Event) (i : Nat) : i ≤ endIndex events i := by
  unfold endIndex
  split
  · split
    · exact Nat.le_add_right i _
    · exact Nat.le_refl i
  · exact Nat.le_refl i

theorem endIndex_lt (within : i < events.length) : endIndex events i < events.length := by
  have := extent_le_length 0 (events.drop (i + 1))
  rw [List.length_drop] at this
  unfold endIndex
  split
  · split <;> omega
  · exact within

/-- What starts in a subtree ends in it. -/
theorem endIndex_le (behind : i < j) (inside : j ≤ endIndex events i) : endIndex events j ≤ endIndex events i := by
  by_cases inner : ∃ e, events[j]? = some e ∧ e.isStart = true
  · obtain ⟨e, found, start⟩ := inner
    by_cases outer : ∃ e, events[i]? = some e ∧ e.isStart = true
    · obtain ⟨d, opened, opens⟩ := outer
      rw [endIndex_start opened opens] at inside ⊢
      obtain ⟨k, rfl⟩ : ∃ k, j = i + 1 + k := ⟨j - (i + 1), by omega⟩
      have there : (events.drop (i + 1))[k]? = some e := by rw [List.getElem?_drop]; exact found
      have ends := extent_inner there start (show k < extent 0 (events.drop (i + 1)) by omega)
      rw [List.drop_drop, ← Nat.add_assoc] at ends
      rw [endIndex_start found start]
      omega
    · rw [endIndex_other fun d opened => by_contra fun opens => outer ⟨d, opened, by simpa using opens⟩] at inside
      omega
  · rwa [endIndex_other fun e found => by_contra fun start => inner ⟨e, found, by simpa using start⟩]

/-- Two subtrees have nothing in common, or the one is in the other. -/
theorem endIndex_nested (events : List Event) (i j : Nat) :
    endIndex events i < j ∨ endIndex events j < i ∨
      (i ≤ j ∧ endIndex events j ≤ endIndex events i) ∨ (j ≤ i ∧ endIndex events i ≤ endIndex events j) := by
  rcases Nat.lt_trichotomy i j with before | rfl | behind
  · by_cases inside : j ≤ endIndex events i
    · exact .inr (.inr (.inl ⟨Nat.le_of_lt before, endIndex_le before inside⟩))
    · exact .inl (Nat.lt_of_not_le inside)
  · exact .inr (.inr (.inl ⟨Nat.le_refl i, Nat.le_refl _⟩))
  · by_cases inside : i ≤ endIndex events j
    · exact .inr (.inr (.inr ⟨Nat.le_of_lt behind, endIndex_le behind inside⟩))
    · exact .inr (.inl (Nat.lt_of_not_le inside))

/-! ## Tags that belong together -/

/-- The end tag at `j` closes the start tag at `i`: the tags between them pair up. -/
structure Closes (events : List Event) (i j : Nat) : Prop where
  before : i < j
  opened : ∃ e, events[i]? = some e ∧ e.isStart = true
  closed : ∃ e, events[j]? = some e ∧ e.isEnd = true
  between : Event.Nested ((events.drop (i + 1)).take (j - (i + 1)))

theorem endIndex_of_closes (h : Closes events i j) : endIndex events i = j := by
  obtain ⟨before, ⟨d, opened, start⟩, ⟨e, closed, ends⟩, between⟩ := h
  obtain ⟨ns, forest⟩ := Part.nested_iff_parts.1 between
  obtain ⟨k, rfl⟩ : ∃ k, j = i + 1 + k := ⟨j - (i + 1), by omega⟩
  rw [Nat.add_sub_cancel_left] at forest
  obtain ⟨inBounds, rfl⟩ := List.getElem?_eq_some_iff.1 closed
  have split : events.drop (i + 1) = Part.eventsOf ns ++ events[i + 1 + k] :: events.drop (i + 1 + k + 1) := by
    rw [forest, ← List.drop_eq_getElem_cons, ← List.drop_drop (i := k), List.take_append_drop]
  have length : (Part.eventsOf ns).length = k := by
    rw [forest, List.length_take, List.length_drop]
    omega
  obtain ⟨p, name, tag⟩ := Event.eq_endTag ends
  rw [endIndex_start opened start, split, extent_eventsOf, length, tag, extent_end_zero rfl rfl]
  omega

/-- If the tags of the whole list pair up, the subtree of a start tag ends with the end tag that closes it. -/
theorem closes_endIndex (nested : Event.Nested events) (found : events[i]? = some e) (start : e.isStart = true) :
    Closes events i (endIndex events i) := by
  obtain ⟨ns, forest⟩ := Part.nested_iff_parts.1 nested
  have within := (List.getElem?_eq_some_iff.1 found).1
  have whole : Part.eventsOf ns <+: events.drop 0 := ⟨[], by rw [List.append_nil, forest, List.drop_zero]⟩
  obtain ⟨⟨i, outer, n⟩, hv, rfl⟩ | ⟨d, same, ends⟩ :=
    TreeNode.mem_allUnder_or_isEnd ns [] whole (Nat.zero_le i) (by rwa [Nat.zero_add, forest])
  · have stands := TreeNode.in_allUnder ns whole hv
    have ended := endIndex_node stands
    obtain ⟨rest, stands⟩ := stands
    dsimp only at *
    cases n with
    | element p name as children q endName =>
      have inside : events.drop (i + 1) = Part.eventsOf children ++ .endTag q endName :: rest := by
        rw [← List.drop_drop, ← stands]
        simp [Part.events]
      have length : endIndex events i = i + 1 + (Part.eventsOf children).length := by
        simp only [Part.events, List.length_cons, List.length_append, List.length_nil] at ended
        omega
      have closed : (events.drop (i + 1))[(Part.eventsOf children).length]? = some (.endTag q endName) := by
        rw [inside, List.getElem?_append_right (Nat.le_refl _), Nat.sub_self]
        rfl
      rw [length]
      refine ⟨by omega, ⟨e, found, start⟩, ⟨_, by rwa [List.getElem?_drop] at closed, rfl⟩, ?_⟩
      rw [Nat.add_sub_cancel_left, inside, List.take_left]
      exact Part.nested_iff_parts.2 ⟨children, rfl⟩
    | leaf d noStart noEnd =>
      have first : (events.drop i)[0]? = some d := by rw [← stands]; rfl
      rw [List.getElem?_drop, Nat.add_zero, found] at first
      cases first
      rw [noStart] at start
      cases start
  · rw [found] at same
    cases same
    obtain ⟨p, name, rfl⟩ := Event.eq_endTag ends
    cases start

theorem closes_iff (nested : Event.Nested events) :
    Closes events i j ↔ (∃ e, events[i]? = some e ∧ e.isStart = true) ∧ j = endIndex events i := by
  refine ⟨fun h => ⟨h.opened, (endIndex_of_closes h).symm⟩, ?_⟩
  rintro ⟨⟨e, found, start⟩, rfl⟩
  exact closes_endIndex nested found start

/-! ## The stack of open elements -/

/-- Replaces the element at an index, which has to be one of the list. -/
def set? (l : List Nat) (i a : Nat) : Option (List Nat) := if i < l.length then some (l.set i a) else none

/-- What is known when some of the events have been gone through. -/
structure EndScan where
  /-- the end of each of them, as far as it is known -/
  found : List Nat
  /-- the start tags that are not closed, the last one first -/
  opened : List Nat

/-- Goes on to the next event. -/
def EndScan.next (s : EndScan) (e : Event) : Option EndScan :=
  let i := s.found.length
  let found := s.found ++ [i]
  if e.isStart then some ⟨found, i :: s.opened⟩
  else if e.isEnd then
    match s.opened with
    | [] => some ⟨found, []⟩
    | u :: opened => (set? found u i).map (⟨·, opened⟩)
  else some ⟨found, s.opened⟩

/-- The index of the last event of each subtree, found with a stack. -/
def ends? (events : List Event) : Option (List Nat) := do
  let s ← events.foldlM EndScan.next ⟨[], []⟩
  s.opened.foldlM (fun found u => set? found u (events.length - 1)) s.found

/-- After `k` events the ends are right for all start tags but the open ones, whose ends lie ahead. -/
structure EndScan.Agrees (events : List Event) (k : Nat) (s : EndScan) : Prop where
  length : s.found.length = k
  found : ∀ j, j < k → j ∉ s.opened → s.found[j]? = some (endIndex events j)
  opened : ∀ depth u, s.opened[depth]? = some u → u < k ∧ endIndex events u + 1 = k + extent depth (events.drop k)

theorem EndScan.Agrees.next {s : EndScan} (h : s.Agrees events k) (there : events[k]? = some e) :
    ∃ s', s.next e = some s' ∧ s'.Agrees events (k + 1) := by
  have split : events.drop k = e :: events.drop (k + 1) := by
    obtain ⟨inBounds, rfl⟩ := List.getElem?_eq_some_iff.1 there
    exact List.drop_eq_getElem_cons inBounds
  have length : (s.found ++ [k]).length = k + 1 := by rw [List.length_append, h.length]; rfl
  have before {j : Nat} (lt : j < k) (closed : j ∉ s.opened) : (s.found ++ [k])[j]? = some (endIndex events j) := by
    rw [List.getElem?_append_left (h.length ▸ lt)]
    exact h.found j lt closed
  have here (noStart : e.isStart = false) : (s.found ++ [k])[k]? = some (endIndex events k) := by
    rw [← h.length, List.getElem?_concat_length, h.length, endIndex_other]
    rintro d same
    cases there.symm.trans same
    exact noStart
  have opened {depth u : Nat} (open? : s.opened[depth]? = some u) : u < k ∧
      endIndex events u + 1 = k + extent depth (e :: events.drop (k + 1)) := split ▸ h.opened depth u open?
  unfold EndScan.next
  dsimp only
  rw [h.length]
  obtain start | ⟨noStart, ends⟩ | ⟨noStart, noEnd⟩ := tag_cases e
  · refine ⟨⟨s.found ++ [k], k :: s.opened⟩, if_pos start, length, fun j lt closed => ?_, fun depth u open? => ?_⟩
    · obtain ⟨other, closed⟩ := not_or.1 (mt List.mem_cons.2 closed)
      exact before (by omega) closed
    · cases depth with
      | zero =>
        cases open?
        refine ⟨Nat.lt_succ_self _, ?_⟩
        rw [endIndex_start there start]
        omega
      | succ depth =>
        obtain ⟨lt, ended⟩ := opened open?
        rw [extent_start depth start] at ended
        exact ⟨by omega, by omega⟩
  · rw [if_neg (by simp [noStart]), if_pos ends]
    cases stack : s.opened with
    | nil =>
      refine ⟨_, rfl, length, fun j lt closed => ?_, fun depth u open? => by cases open?⟩
      obtain rfl | lt := Nat.eq_or_lt_of_le (Nat.le_of_lt_succ lt)
      · exact here noStart
      · exact before lt (stack ▸ closed)
    | cons u rest =>
      rw [stack] at opened before
      obtain ⟨lt, ended⟩ := opened (show (u :: rest)[0]? = some u from rfl)
      rw [extent_end_zero noStart ends] at ended
      refine ⟨⟨(s.found ++ [k]).set u k, rest⟩, by simp [set?, length, Nat.lt_succ_of_lt lt], ?_, fun j below closed => ?_,
        fun depth v open? => ?_⟩
      · rw [List.length_set, length]
      · by_cases same : u = j
        · subst same
          rw [List.getElem?_set_self (by omega)]
          congr 1
          omega
        · dsimp only
          rw [List.getElem?_set_ne same]
          obtain rfl | lt := Nat.eq_or_lt_of_le (Nat.le_of_lt_succ below)
          · exact here noStart
          · exact before lt (by simp [Ne.symm same, closed])
      · obtain ⟨lt, ended⟩ := opened (show (u :: rest)[depth + 1]? = some v from open?)
        rw [extent_end_succ depth noStart ends] at ended
        exact ⟨by omega, by omega⟩
  · rw [if_neg (by simp [noStart]), if_neg (by simp [noEnd])]
    refine ⟨_, rfl, length, fun j lt closed => ?_, fun depth u open? => ?_⟩
    · obtain rfl | lt := Nat.eq_or_lt_of_le (Nat.le_of_lt_succ lt)
      · exact here noStart
      · exact before lt closed
    · obtain ⟨lt, ended⟩ := opened open?
      rw [extent_leaf depth noStart noEnd] at ended
      exact ⟨by omega, by omega⟩

theorem EndScan.Agrees.run {s : EndScan} (h : s.Agrees events k) (le : k ≤ events.length) :
    ∃ s', (events.drop k).foldlM EndScan.next s = some s' ∧ s'.Agrees events events.length := by
  induction left : events.drop k generalizing k s with
  | nil =>
    obtain rfl : k = events.length := Nat.le_antisymm le (List.drop_eq_nil_iff.1 left)
    exact ⟨s, rfl, h⟩
  | cons e es ih =>
    have there : events[k]? = some e := by rw [← List.head?_drop, left]; rfl
    obtain ⟨s', first, agrees⟩ := h.next there
    have rest : events.drop (k + 1) = es := by rw [← List.drop_drop, left]; rfl
    obtain ⟨t, others, agrees⟩ := ih agrees (List.getElem?_eq_some_iff.1 there).1 rest
    exact ⟨t, by rw [List.foldlM_cons, first]; exact others, agrees⟩

/-- The elements at some indices are replaced. -/
theorem foldlM_set? {us l : List Nat} {a : Nat} (within : ∀ u ∈ us, u < l.length) :
    ∃ l', us.foldlM (fun l u => set? l u a) l = some l' ∧ l'.length = l.length ∧
      ∀ j, j < l.length → l'[j]? = if j ∈ us then some a else l[j]? := by
  induction us generalizing l with
  | nil => exact ⟨l, rfl, rfl, fun j _ => by rw [if_neg List.not_mem_nil]⟩
  | cons u us ih =>
    obtain ⟨first, others⟩ := List.forall_mem_cons.1 within
    obtain ⟨l', all, length, replaced⟩ := ih (l := l.set u a) (by simpa using others)
    rw [List.length_set] at length replaced
    refine ⟨l', ?_, length, fun j lt => ?_⟩
    · rw [List.foldlM_cons, set?, if_pos first]
      exact all
    · rw [replaced j lt]
      by_cases later : j ∈ us
      · simp [later]
      · by_cases same : u = j
        · subst same
          simp [lt, later]
        · simp [later, List.getElem?_set_ne same, Ne.symm same]

/-- The stack gives the end of each subtree. -/
theorem ends?_eq (events : List Event) : ends? events = some ((List.range events.length).map (endIndex events)) := by
  have start : EndScan.Agrees events 0 ⟨[], []⟩ := ⟨rfl, by simp, by simp⟩
  obtain ⟨s, run, agrees⟩ := start.run (Nat.zero_le _)
  have opened {u : Nat} (hu : u ∈ s.opened) : u < events.length ∧ endIndex events u + 1 = events.length := by
    obtain ⟨depth, open?⟩ := List.mem_iff_getElem?.1 hu
    have ended := agrees.opened depth u open?
    rwa [List.drop_length, extent, Nat.add_zero] at ended
  obtain ⟨l, closed, length, replaced⟩ :=
    foldlM_set? (l := s.found) (a := events.length - 1) fun u (hu : u ∈ s.opened) => agrees.length ▸ (opened hu).1
  rw [agrees.length] at length replaced
  unfold ends?
  rw [List.drop_zero] at run
  rw [run]
  refine closed.trans ?_
  congr 1
  refine List.ext_getElem? fun j => ?_
  by_cases lt : j < events.length
  · rw [replaced j lt, List.getElem?_map, List.getElem?_range lt]
    split
    next hj =>
      have := (opened hj).2
      simp only [Option.map_some, Option.some.injEq]
      omega
    next hj => exact agrees.found j lt hj
  · rw [List.getElem?_eq_none (by omega), List.getElem?_eq_none (by simpa using lt)]

end Path

end Stencil
