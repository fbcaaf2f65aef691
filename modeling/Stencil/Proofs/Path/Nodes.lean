import Mathlib.Data.List.Nodup
import Stencil.Path.Select
import Stencil.Proofs.Document.Part

/-!
# Nodes

A path sees a list of events as a tree, in which a node is a part at its place. The selection from a
list works with indices instead: it finds the end of an element by counting tags, goes to the children
of an element by leaping from one to the next, and to its descendants by going through all that is
between its tags. Here the two views are brought together. The nodes of a forest come in the order of their
indices (`TreeNode.sorted_allUnder`), and an index between the tags of an element is that of a descendant
or of an end tag (`TreeNode.mem_allUnder_or_isEnd`).
-/

namespace Stencil

/-- A part at its place in a stream. -/
structure TreeNode where
  /-- the index of the first event of the part -/
  index : Nat
  /-- the start tags of the elements that the part is in, from the inside out -/
  outer : List Event
  part : Part

namespace Part

def isElement : Part → Bool
  | element .. => true
  | leaf .. => false

/-- The attributes of an element; there are none elsewhere. -/
def attributes : Part → Attributes
  | element _ _ as _ _ _ => as
  | leaf .. => []

/-- The place of the first event. -/
def position : Part → Position
  | element p _ _ _ _ _ => p
  | leaf e _ _ => e.position

end Part

namespace TreeNode

/-- The parts of a list as nodes, if the first event of the list has the index `i`. -/
def place (outer : List Event) (i : Nat) : List Part → List TreeNode
  | [] => []
  | n :: ns => ⟨i, outer, n⟩ :: place outer (i + n.events.length) ns

mutual

/-- A part and all that is in it as nodes, in the order of their first events. -/
def under (outer : List Event) (i : Nat) : Part → List TreeNode
  | .element p name as children q endName =>
    ⟨i, outer, .element p name as children q endName⟩ :: allUnder (.startTag p name as :: outer) (i + 1) children
  | .leaf e noStart noEnd => [⟨i, outer, .leaf e noStart noEnd⟩]

/-- The parts of a list and all that is in them. -/
def allUnder (outer : List Event) (i : Nat) : List Part → List TreeNode
  | [] => []
  | n :: ns => under outer i n ++ allUnder outer (i + n.events.length) ns

end

/-- The elements that are open in the content of the node, from the inside out; the node itself is the first
of them if it is an element. -/
def openElements (v : TreeNode) : List Event :=
  match v.part with
  | .element p name as _ _ _ => .startTag p name as :: v.outer
  | .leaf .. => v.outer

def children (v : TreeNode) : List TreeNode :=
  match v.part with
  | .element _ _ _ children _ _ => place v.openElements (v.index + 1) children
  | .leaf .. => []

/-- The proper descendants of a node. -/
def descendants (v : TreeNode) : List TreeNode :=
  match v.part with
  | .element _ _ _ children _ _ => allUnder v.openElements (v.index + 1) children
  | .leaf .. => []

/-! ## Nodes of a forest -/

variable {outer : List Event} {i : Nat} {n : Part} {ns : List Part} {v w : TreeNode}

theorem under_eq (outer : List Event) (i : Nat) (n : Part) :
    under outer i n = ⟨i, outer, n⟩ :: descendants ⟨i, outer, n⟩ := by
  cases n <;> rfl

theorem place_subset_allUnder (outer : List Event) (i : Nat) (ns : List Part) : place outer i ns ⊆ allUnder outer i ns := by
  induction ns generalizing i with
  | nil => exact List.Subset.refl _
  | cons n ns ih =>
    intro v hv
    rw [allUnder, under_eq]
    rcases List.mem_cons.1 hv with rfl | later
    · exact List.mem_append_left _ List.mem_cons_self
    · exact List.mem_append_right _ (ih _ later)

theorem children_subset_descendants (v : TreeNode) : v.children ⊆ v.descendants := by
  unfold children descendants
  split
  · exact place_subset_allUnder ..
  · exact List.Subset.refl _

mutual

/-- What is in a node of a part is in the part. -/
theorem descendants_subset_under (n : Part) {outer : List Event} {i : Nat} {v : TreeNode} (hv : v ∈ under outer i n) :
    v.descendants ⊆ under outer i n := by
  rw [under_eq] at hv ⊢
  rcases List.mem_cons.1 hv with rfl | inside
  · exact List.subset_cons_self _ _
  · cases n with
    | element p name as children q endName =>
      exact List.Subset.trans (descendants_subset_allUnder children inside) (List.subset_cons_self _ _)
    | leaf e noStart noEnd => cases inside

theorem descendants_subset_allUnder (ns : List Part) {outer : List Event} {i : Nat} {v : TreeNode}
    (hv : v ∈ allUnder outer i ns) : v.descendants ⊆ allUnder outer i ns := by
  cases ns with
  | nil => cases hv
  | cons n ns =>
    rcases List.mem_append.1 hv with first | later
    · exact List.Subset.trans (descendants_subset_under n first) (List.subset_append_left _ _)
    · exact List.Subset.trans (descendants_subset_allUnder ns later) (List.subset_append_right _ _)

end

/-! ## Indices -/

theorem length_events_pos (n : Part) : 0 < n.events.length := by
  cases n <;> simp [Part.events]

mutual

/-- The first events of what is in a part are among its events. -/
theorem index_under (n : Part) {outer : List Event} {i : Nat} {v : TreeNode} (hv : v ∈ under outer i n) :
    i ≤ v.index ∧ v.index < i + n.events.length := by
  have some := length_events_pos n
  rw [under_eq] at hv
  rcases List.mem_cons.1 hv with rfl | inside
  · exact ⟨Nat.le_refl _, by simpa using some⟩
  · cases n with
    | element p name as children q endName =>
      have between : i + 1 ≤ v.index ∧ v.index < i + 1 + (Part.eventsOf children).length := index_allUnder children inside
      simp only [Part.events, List.length_cons, List.length_append, List.length_nil]
      omega
    | leaf e noStart noEnd => cases inside

theorem index_allUnder (ns : List Part) {outer : List Event} {i : Nat} {v : TreeNode} (hv : v ∈ allUnder outer i ns) :
    i ≤ v.index ∧ v.index < i + (Part.eventsOf ns).length := by
  cases ns with
  | nil => cases hv
  | cons n ns =>
    rw [Part.eventsOf, List.length_append]
    rcases List.mem_append.1 hv with first | later
    · have := index_under n first
      omega
    · have := index_allUnder ns later
      omega

end

/-- What is in an element comes after its start tag. -/
theorem index_descendants (h : w ∈ v.descendants) : v.index < w.index := by
  unfold descendants at h
  split at h
  · have := index_allUnder _ h
    omega
  · cases h

mutual

theorem sorted_under (outer : List Event) (i : Nat) (n : Part) : (under outer i n).Pairwise fun v w => v.index < w.index := by
  rw [under_eq]
  refine List.pairwise_cons.2 ⟨fun w hw => index_descendants hw, ?_⟩
  cases n with
  | element p name as children q endName => exact sorted_allUnder _ (i + 1) children
  | leaf e noStart noEnd => exact List.Pairwise.nil

/-- The nodes of a forest come in the order of their first events. -/
theorem sorted_allUnder (outer : List Event) (i : Nat) (ns : List Part) :
    (allUnder outer i ns).Pairwise fun v w => v.index < w.index := by
  cases ns with
  | nil => exact List.Pairwise.nil
  | cons n ns =>
    refine List.pairwise_append.2 ⟨sorted_under outer i n, sorted_allUnder outer _ ns, fun v hv w hw => ?_⟩
    have before := index_under n hv
    have after := index_allUnder ns hw
    omega

end

/-- A node of a forest is known by its index. -/
theorem eq_of_index_eq (hv : v ∈ allUnder outer i ns) (hw : w ∈ allUnder outer i ns) (same : v.index = w.index) : v = w := by
  have distinct : ((allUnder outer i ns).map TreeNode.index).Nodup :=
    List.pairwise_map.2 ((sorted_allUnder outer i ns).imp Nat.ne_of_lt)
  exact List.inj_on_of_nodup_map distinct hv hw same

/-! ## Nodes in a list of events -/

/-- The events of the node are found in the list at its index. -/
def In (events : List Event) (v : TreeNode) : Prop := v.part.events <+: events.drop v.index

variable {events : List Event}

theorem prefix_drop {es fs : List Event} (h : es ++ fs <+: events.drop i) : fs <+: events.drop (i + es.length) := by
  obtain ⟨rest, h⟩ := h
  rw [← List.drop_drop, ← h, List.append_assoc, List.drop_left]
  exact List.prefix_append _ _

theorem prefix_left {es fs : List Event} (h : es ++ fs <+: events.drop i) : es <+: events.drop i :=
  (List.prefix_append _ _).trans h

/-- The content of an element follows its start tag. -/
theorem prefix_children {p q : Position} {name endName : QName} {as : Attributes} {children : List Part}
    (h : (Part.element p name as children q endName).events <+: events.drop i) :
    Part.eventsOf children <+: events.drop (i + 1) := by
  rw [Part.events, ← List.singleton_append] at h
  exact prefix_left (prefix_drop h)

mutual

theorem in_under (n : Part) {outer : List Event} {i : Nat} (h : n.events <+: events.drop i) {v : TreeNode}
    (hv : v ∈ under outer i n) : v.In events := by
  rw [under_eq] at hv
  rcases List.mem_cons.1 hv with rfl | inside
  · exact h
  · cases n with
    | element p name as children q endName => exact in_allUnder children (prefix_children h) inside
    | leaf e noStart noEnd => cases inside

/-- What is in a forest is found in the list where the forest is. -/
theorem in_allUnder (ns : List Part) {outer : List Event} {i : Nat} (h : Part.eventsOf ns <+: events.drop i) {v : TreeNode}
    (hv : v ∈ allUnder outer i ns) : v.In events := by
  cases ns with
  | nil => cases hv
  | cons n ns =>
    rw [Part.eventsOf] at h
    rcases List.mem_append.1 hv with first | later
    · exact in_under n (prefix_left h) first
    · exact in_allUnder ns (prefix_drop h) later

end

mutual

theorem mem_under_or_isEnd (n : Part) (outer : List Event) {i j : Nat} (h : n.events <+: events.drop i) (low : i ≤ j)
    (high : j < i + n.events.length) :
    (∃ v ∈ under outer i n, v.index = j) ∨ ∃ e, events[j]? = some e ∧ e.isEnd = true := by
  rw [under_eq]
  by_cases first : i = j
  · exact .inl ⟨_, List.mem_cons_self, first⟩
  cases n with
  | element p name as children q endName =>
    simp only [Part.events, List.length_cons, List.length_append, List.length_nil] at high
    by_cases last : j = i + 1 + (Part.eventsOf children).length
    · right
      rw [Part.events, ← List.singleton_append] at h
      obtain ⟨rest, close⟩ := prefix_drop (prefix_drop h)
      refine ⟨.endTag q endName, ?_, rfl⟩
      have found : (events.drop j)[0]? = some (.endTag q endName) := by
        rw [last, ← List.length_singleton (a := Event.startTag p name as), ← close]
        rfl
      simpa using found
    · rcases mem_allUnder_or_isEnd children (.startTag p name as :: outer) (prefix_children h) (j := j) (by omega)
        (by omega) with ⟨v, inside, index⟩ | close
      · exact .inl ⟨v, List.mem_cons_of_mem _ inside, index⟩
      · exact .inr close
  | leaf e noStart noEnd =>
    simp only [Part.events, List.length_cons, List.length_nil] at high
    omega

/-- At each index in a forest starts a node of it, or there is an end tag. -/
theorem mem_allUnder_or_isEnd (ns : List Part) (outer : List Event) {i j : Nat} (h : Part.eventsOf ns <+: events.drop i)
    (low : i ≤ j) (high : j < i + (Part.eventsOf ns).length) :
    (∃ v ∈ allUnder outer i ns, v.index = j) ∨ ∃ e, events[j]? = some e ∧ e.isEnd = true := by
  cases ns with
  | nil =>
    simp only [Part.eventsOf, List.length_nil] at high
    omega
  | cons n ns =>
    rw [Part.eventsOf] at h high
    rw [List.length_append] at high
    by_cases first : j < i + n.events.length
    · rcases mem_under_or_isEnd n outer (prefix_left h) low first with ⟨v, inside, index⟩ | close
      · exact .inl ⟨v, List.mem_append_left _ inside, index⟩
      · exact .inr close
    · rcases mem_allUnder_or_isEnd ns outer (prefix_drop h) (j := j) (by omega) (by omega) with ⟨v, inside, index⟩ | close
      · exact .inl ⟨v, List.mem_append_right _ inside, index⟩
      · exact .inr close

end

end TreeNode

/-! ## What is done with indices -/

namespace Path

open TreeNode

variable {events : List Event} {outer : List Event} {i : Nat} {v : TreeNode}

mutual

theorem extent_events (n : Part) (depth : Nat) (es : List Event) :
    extent depth (n.events ++ es) = n.events.length + extent depth es := by
  cases n with
  | element p name as children q endName =>
    simp only [Part.events, List.cons_append, List.append_assoc, List.nil_append, extent, Event.isStart, if_true,
      extent_eventsOf children, Event.isEnd, Bool.false_eq_true, if_false, List.length_cons, List.length_append,
      List.length_nil]
    omega
  | leaf e noStart noEnd => simp [Part.events, extent, noStart, noEnd]

/-- Counting goes over what is whole. -/
theorem extent_eventsOf (ns : List Part) (depth : Nat) (es : List Event) :
    extent depth (Part.eventsOf ns ++ es) = (Part.eventsOf ns).length + extent depth es := by
  cases ns with
  | nil => simp [Part.eventsOf]
  | cons n ns =>
    rw [Part.eventsOf, List.append_assoc, extent_events n, extent_eventsOf ns, List.length_append, Nat.add_assoc]

end

/-- The subtree of a node ends with its last event. -/
theorem endIndex_node (h : v.In events) : endIndex events v.index + 1 = v.index + v.part.events.length := by
  obtain ⟨i, outer, n⟩ := v
  obtain ⟨rest, h⟩ := h
  dsimp only at h ⊢
  have first : events[i]? = (events.drop i).head? := by simp
  cases n with
  | element p name as children q endName =>
    have inside : events.drop (i + 1) = Part.eventsOf children ++ (.endTag q endName :: rest) := by
      rw [← List.drop_drop, ← h]
      simp [Part.events]
    rw [endIndex, first, ← h, inside]
    simp only [Part.events, List.cons_append, List.head?_cons, Event.isStart, if_true, extent_eventsOf, extent,
      Event.isEnd, Bool.false_eq_true, if_false, List.length_cons, List.length_append, List.length_nil]
    omega
  | leaf e noStart noEnd =>
    rw [endIndex, first, ← h]
    simp [Part.events, noStart]

theorem subtree_node (h : v.In events) : subtree events v.index = v.part.events := by
  rw [subtree, endIndex_node h, Nat.add_sub_cancel_left]
  exact (List.prefix_iff_eq_take.1 h).symm

/-- The leaps of the child axis go from part to part. -/
theorem indices_child (ns : List Part) (outer : List Event) {fuel i : Nat} (h : Part.eventsOf ns <+: events.drop i)
    (enough : (Part.eventsOf ns).length ≤ fuel) :
    indices events .child fuel i (i + (Part.eventsOf ns).length) = (place outer i ns).map TreeNode.index := by
  induction ns generalizing fuel i with
  | nil => cases fuel <;> simp [Part.eventsOf, indices, place]
  | cons n ns ih =>
    have some := length_events_pos n
    rw [Part.eventsOf] at h enough ⊢
    rw [List.length_append] at enough ⊢
    obtain ⟨fuel, rfl⟩ := Nat.exists_eq_add_of_lt (show 0 < fuel by omega)
    have leap : endIndex events i + 1 = i + n.events.length := endIndex_node (v := ⟨i, outer, n⟩) (prefix_left h)
    rw [Nat.zero_add, indices, if_pos (by omega), leap, ← Nat.add_assoc, ih (prefix_drop h) (by omega)]
    rfl

/-- The descendant axis leaves out nothing. -/
theorem mem_indices_descendant {fuel i stop j : Nat} (enough : stop - i ≤ fuel) :
    j ∈ indices events .descendant fuel i stop ↔ i ≤ j ∧ j < stop := by
  induction fuel generalizing i with
  | zero =>
    simp only [indices, List.not_mem_nil, false_iff]
    omega
  | succ fuel ih =>
    rw [indices]
    split
    · rw [List.mem_cons, ih (by omega)]
      omega
    · simp only [List.not_mem_nil, false_iff]
      omega

end Path

end Stencil
