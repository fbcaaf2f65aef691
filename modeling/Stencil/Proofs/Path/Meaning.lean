import Stencil.Proofs.Path.Nodes
import Stencil.Proofs.Path.Notation
import Stencil.Proofs.Path.Selection

/-!
# What paths mean

In the tree of a stream, a step leads from a node to its children or descendants that pass, and a path
selects what the steps of its routes lead to from the elements that are in no other (`Path.Selects`). A step
by indices is such a step (`Path.mem_stepFrom`), and so is a route (`Path.mem_follow`).
-/

namespace Stencil

/-- The part passes the test and the predicate of a step. -/
def Part.Passes (s : Step) : Part → Prop
  | element _ name as _ _ _ => s.test.passes name = true ∧ ∀ q ∈ s.predicate?, q.holds as = true
  | leaf e _ _ => s.test = .text ∧ ∃ p t, e = .text p t

/-- The nodes that a step, not one to attributes, leads to from a node. -/
inductive Step.Leads (s : Step) (u : TreeNode) : TreeNode → Prop
  | self (stays : s.test = .self) (axis : s.axis = .child) (passes : u.part.Passes s) : Leads s u u
  | child {v : TreeNode} (moves : s.test ≠ .self) (axis : s.axis = .child) (inside : v ∈ u.children)
    (passes : v.part.Passes s) : Leads s u v
  | descendant {v : TreeNode} (moves : s.test ≠ .self) (axis : s.axis = .descendant) (inside : v ∈ u.descendants)
    (passes : v.part.Passes s) : Leads s u v

/-- The test of a step that leads to elements other than the one where it starts, or to texts. -/
def NodeTest.isProper : NodeTest → Bool
  | element _ | anyElement | text => true
  | self | attributeNamed _ | anyAttribute => false

namespace Path

/-- What can be selected: an element or text, or the value of an attribute, the `k`-th one of its element. -/
inductive Target where
  | whole (v : TreeNode)
  | value (v : TreeNode) (k : Nat) (a : Attribute)

namespace Target

/-- The index of the first event of the node, and the number of the attribute, counted from one. -/
def key : Target → Nat × Nat
  | whole v => (v.index, 0)
  | value v k _ => (v.index, k + 1)

/-- An element from its start tag to its end tag, or a text; for an attribute its value as a text. -/
def events : Target → List Event
  | whole v => v.part.events
  | value v _ a => [.text v.part.position a.text]

/-- What can be selected at a node. -/
def ofNode (v : TreeNode) : List Target := .whole v :: v.part.attributes.zipIdx.map fun (a, k) => .value v k a

/-- The order of the document: by index, and then by attribute. -/
def Before (t u : Target) : Prop := t.key.1 < u.key.1 ∨ t.key.1 = u.key.1 ∧ t.key.2 < u.key.2

end Target

/-- What some steps lead to from a node. -/
inductive Reaches : List Step → TreeNode → Target → Prop
  | here (u : TreeNode) : Reaches [] u (.whole u)
  | value {s : Step} {u : TreeNode} {k : Nat} {a : Attribute} (axis : s.axis = .child)
    (there : u.part.attributes[k]? = some a)
    (asked : s.test = .anyAttribute ∨ s.test = .attributeNamed a.name.qualified) : Reaches [s] u (.value u k a)
  | step {s : Step} {steps : List Step} {u v : TreeNode} {t : Target} (first : s.Leads u v) (rest : Reaches steps v t) :
    Reaches (s :: steps) u t

/-- A path selects from a forest what the steps of one of its routes lead to from an outermost element. -/
def Selects (p : Path) (ns : List Part) (t : Target) : Prop :=
  ∃ r ∈ p.routes, ∃ v ∈ TreeNode.place [] 0 ns, v.part.isElement = true ∧ Reaches r.steps v t

/-! ## Steps -/

open TreeNode

variable {events : List Event} {s : Step} {u v w : TreeNode} {i : Nat}

theorem getElem?_node (h : v.In events) : events[v.index]? = v.part.events.head? := by
  obtain ⟨rest, h⟩ := h
  have first : events[v.index]? = (events.drop v.index).head? := by simp
  rw [first, ← h]
  obtain ⟨i, outer, n⟩ := v
  cases n <;> rfl

theorem passes_node (h : v.In events) : passes events s v.index = true ↔ v.part.Passes s := by
  unfold passes
  rw [getElem?_node h]
  obtain ⟨i, outer, n⟩ := v
  cases n with
  | element p name as children q endName =>
    simp only [Part.events, List.head?_cons, Part.Passes]
    split
    · rename_i test
      simp [test, NodeTest.passes]
    · simp [Step.matchesElement, Option.all_eq_true]
  | leaf e noStart noEnd =>
    simp only [Part.events, List.head?_cons, Part.Passes]
    split
    · rename_i test
      cases e <;> simp [test]
    · rename_i test
      have none : s.matchesElement e = false := by
        cases e with
        | startTag => cases noStart
        | _ => rfl
      simp only [none, Bool.false_eq_true, false_iff]
      exact fun text => test text.1

theorem not_passes_of_isEnd {e : Event} (found : events[i]? = some e) (isEnd : e.isEnd = true) :
    ¬ passes events s i = true := by
  intro passed
  obtain ⟨e', found', noEnd⟩ := noEnds_passes passed
  cases found.symm.trans found'
  rw [isEnd] at noEnd
  cases noEnd

/-- Where a step is to go to the children or descendants, it goes where they are. -/
theorem mem_indices_children (h : u.In events) :
    i ∈ indices events .child (endIndex events u.index - u.index) (u.index + 1) (endIndex events u.index) ↔
      ∃ v ∈ u.children, v.index = i := by
  have last := endIndex_node h
  obtain ⟨j, outer, n⟩ := u
  dsimp only at last ⊢
  cases n with
  | element p name as children q endName =>
    simp only [Part.events, List.length_cons, List.length_append, List.length_nil] at last
    have enough : (Part.eventsOf children).length ≤ endIndex events j - j := by omega
    have content := indices_child children (.startTag p name as :: outer) (prefix_children h) enough
    rw [show endIndex events j = j + 1 + (Part.eventsOf children).length by omega] at content ⊢
    rw [content, List.mem_map]
    rfl
  | leaf e noStart noEnd =>
    simp only [Part.events, List.length_cons, List.length_nil] at last
    rw [show endIndex events j - j = 0 by omega]
    simp [indices, children]

theorem mem_indices_descendants (h : u.In events) :
    i ∈ indices events .descendant (endIndex events u.index - u.index) (u.index + 1) (endIndex events u.index) ∧
      passes events s i = true ↔ ∃ v ∈ u.descendants, v.index = i ∧ passes events s i = true := by
  rw [mem_indices_descendant (by omega)]
  have last := endIndex_node h
  obtain ⟨j, outer, n⟩ := u
  dsimp only at last ⊢
  cases n with
  | element p name as children q endName =>
    simp only [Part.events, List.length_cons, List.length_append, List.length_nil] at last
    constructor
    · rintro ⟨⟨low, high⟩, passed⟩
      have content : Part.eventsOf children <+: events.drop (j + 1) := prefix_children h
      rcases mem_allUnder_or_isEnd children (.startTag p name as :: outer) content low (by omega) with
        ⟨v, inside, index⟩ | ⟨e, found, isEnd⟩
      · exact ⟨v, inside, index, passed⟩
      · exact absurd passed (not_passes_of_isEnd found isEnd)
    · rintro ⟨v, inside, rfl, passed⟩
      have between : j + 1 ≤ v.index ∧ v.index < j + 1 + (Part.eventsOf children).length := index_allUnder children inside
      exact ⟨⟨between.1, by omega⟩, passed⟩
  | leaf e noStart noEnd =>
    simp only [Part.events, List.length_cons, List.length_nil] at last
    constructor
    · rintro ⟨⟨low, high⟩, -⟩
      omega
    · rintro ⟨v, inside, -⟩
      cases inside

/-- What is in a node of a list is in the list. -/
theorem in_of_mem_descendants (h : u.In events) (hv : v ∈ u.descendants) : v.In events := by
  obtain ⟨j, outer, n⟩ := u
  exact in_under n h (by rw [under_eq]; exact List.mem_cons_of_mem _ hv)

theorem axis_of_not_isProper (proper : s.axis = .descendant → s.test.isProper = true) (h : s.test.isProper = false) :
    s.axis = .child := by
  cases axis : s.axis with
  | child => rfl
  | descendant => cases h.symm.trans (proper axis)

/-- The nodes to which an axis leads. -/
def alongAxis (axis : Axis) (u : TreeNode) : List TreeNode :=
  match axis with
  | .child => u.children
  | .descendant => u.descendants

theorem alongAxis_subset (axis : Axis) (u : TreeNode) : alongAxis axis u ⊆ u.descendants := by
  cases axis with
  | child => exact children_subset_descendants u
  | descendant => exact List.Subset.refl _

/-- A step away from a node goes along its axis. -/
theorem leads_iff (moves : s.test ≠ .self) : s.Leads u v ↔ v ∈ alongAxis s.axis u ∧ v.part.Passes s := by
  constructor
  · intro leads
    cases leads with
    | self stays => exact absurd stays moves
    | child _ axis inside passes | descendant _ axis inside passes =>
      rw [axis]
      exact ⟨inside, passes⟩
  · rintro ⟨inside, passes⟩
    cases axis : s.axis with
    | child =>
      rw [axis] at inside
      exact .child moves axis inside passes
    | descendant =>
      rw [axis] at inside
      exact .descendant moves axis inside passes

theorem leads_self (stays : s.test = .self) (axis : s.axis = .child) : s.Leads u v ↔ v = u ∧ u.part.Passes s := by
  constructor
  · intro leads
    cases leads with
    | self _ _ passes => exact ⟨rfl, passes⟩
    | child moves | descendant moves => exact absurd stays moves
  · rintro ⟨rfl, passes⟩
    exact .self stays axis passes

/-- The indices along an axis are those of the nodes there, as far as events that pass are concerned. -/
theorem mem_indices (h : u.In events) (axis : Axis) :
    i ∈ indices events axis (endIndex events u.index - u.index) (u.index + 1) (endIndex events u.index) ∧
      passes events s i = true ↔ ∃ v ∈ alongAxis axis u, v.index = i ∧ v.part.Passes s := by
  have there : ∀ v ∈ alongAxis axis u, v.In events := fun v hv => in_of_mem_descendants h (alongAxis_subset axis u hv)
  have passed : (∃ v ∈ alongAxis axis u, v.index = i ∧ v.part.Passes s) ↔
      ∃ v ∈ alongAxis axis u, v.index = i ∧ passes events s i = true := by
    refine exists_congr fun v => and_congr_right fun hv => and_congr_right fun index => ?_
    rw [← index, passes_node (there v hv)]
  rw [passed]
  cases axis with
  | child =>
    rw [mem_indices_children h, ← exists_and_right]
    simp only [alongAxis, and_assoc]
  | descendant => exact mem_indices_descendants h

/-- **A step by indices is a step in the tree.** -/
theorem mem_stepFrom (h : u.In events) (proper : s.axis = .descendant → s.test.isProper = true) :
    i ∈ stepFrom events s u.index ↔ ∃ v, s.Leads u v ∧ v.index = i := by
  by_cases stays : s.test = .self
  · have axis := axis_of_not_isProper proper (by rw [stays]; rfl)
    have alone : stepFrom events s u.index = if passes events s u.index then [u.index] else [] := by
      simp only [stepFrom, stays]
    simp only [leads_self stays axis, alone, ← passes_node h]
    split
    · rename_i passed
      simp [passed, eq_comm]
    · rename_i failed
      simp [failed]
  · have moves : stepFrom events s u.index = (indices events s.axis (endIndex events u.index - u.index) (u.index + 1)
        (endIndex events u.index)).filter (passes events s) := by
      unfold stepFrom
      split
      · contradiction
      · rfl
    rw [moves, List.mem_filter, mem_indices h]
    simp only [leads_iff stays]
    constructor
    · rintro ⟨v, inside, index, passed⟩
      exact ⟨v, ⟨inside, passed⟩, index⟩
    · rintro ⟨v, ⟨inside, passed⟩, index⟩
      exact ⟨v, inside, index, passed⟩

/-! ## Routes -/

theorem leads_mem {ns : List Part} {outer : List Event} (hu : u ∈ allUnder outer i ns) (leads : s.Leads u v) :
    v ∈ allUnder outer i ns := by
  cases leads with
  | self => exact hu
  | child _ _ inside => exact descendants_subset_allUnder ns hu (children_subset_descendants u inside)
  | descendant _ _ inside => exact descendants_subset_allUnder ns hu inside

theorem attributesAt_node (h : u.In events) : attributesAt events u.index = u.part.attributes := by
  rw [attributesAt, getElem?_node h]
  obtain ⟨i, outer, n⟩ := u
  cases n with
  | element p name as children q endName => rfl
  | leaf e noStart noEnd =>
    cases e with
    | startTag => cases noStart
    | _ => rfl

theorem selectsAttribute_iff {test : NodeTest} {a : Attribute} :
    selectsAttribute test a = true ↔ test = .anyAttribute ∨ test = .attributeNamed a.name.qualified := by
  cases test with
  | attributeNamed name =>
    simp only [selectsAttribute, beq_iff_eq, reduceCtorEq, false_or, NodeTest.attributeNamed.injEq]
    exact eq_comm
  | _ => simp [selectsAttribute]

theorem mem_attributeKeys {test : NodeTest} {k : Nat × Nat} (h : u.In events) :
    k ∈ attributeKeys events test u.index ↔
      ∃ j a, u.part.attributes[j]? = some a ∧ (test = .anyAttribute ∨ test = .attributeNamed a.name.qualified) ∧
        (u.index, j + 1) = k := by
  simp only [attributeKeys, attributesAt_node h, List.mem_map, List.mem_filter, Prod.exists,
    List.mk_mem_zipIdx_iff_getElem?, selectsAttribute_iff]
  constructor
  · rintro ⟨a, j, ⟨there, asked⟩, rfl⟩
    exact ⟨j, a, there, asked, rfl⟩
  · rintro ⟨j, a, there, asked, rfl⟩
    exact ⟨a, j, ⟨there, asked⟩, rfl⟩

/-- After `//` there are steps to other elements and texts only. -/
def Proper (steps : List Step) : Prop := ∀ s ∈ steps, s.axis = .descendant → s.test.isProper = true

theorem AttributesLast.tail {steps : List Step} (h : AttributesLast (s :: steps)) : AttributesLast steps := by
  intro t ht
  cases steps with
  | nil => cases ht
  | cons u steps => exact h t (List.mem_cons_of_mem _ ht)

theorem AttributesLast.nil_of_isAttribute {steps : List Step} (h : AttributesLast (s :: steps))
    (asks : s.test.isAttribute = true) : steps = [] := by
  cases steps with
  | nil => rfl
  | cons t steps =>
    rw [h s List.mem_cons_self] at asks
    cases asks

theorem not_isProper_of_isAttribute {test : NodeTest} (h : test.isAttribute = true) : test.isProper = false := by
  cases test with
  | attributeNamed | anyAttribute => rfl
  | _ => cases h

/-- A step to attributes leads to no node. -/
theorem not_leads_of_isAttribute (asks : s.test.isAttribute = true) : ¬ s.Leads u v := by
  have fails : ∀ n : Part, ¬ n.Passes s := by
    intro n
    cases n with
    | element p name as children q endName =>
      rintro ⟨passed, -⟩
      cases test : s.test <;> simp_all [NodeTest.isAttribute, NodeTest.passes]
    | leaf e noStart noEnd =>
      rintro ⟨text, -⟩
      rw [text] at asks
      cases asks
  intro leads
  cases leads with
  | self _ _ passed | child _ _ _ passed | descendant _ _ _ passed => exact fails _ passed

section Forest

variable {ns : List Part} (forest : Part.eventsOf ns = events) {nodes : List Nat}

/-- The indices are those of nodes. -/
def Known (ns : List Part) (nodes : List Nat) : Prop := ∀ i ∈ nodes, ∃ u ∈ allUnder [] 0 ns, u.index = i

include forest

theorem in_of_forest (hu : u ∈ allUnder [] 0 ns) : u.In events :=
  in_allUnder ns (by rw [forest]; exact List.prefix_refl _) hu

theorem mem_stepFromAll (known : Known ns nodes) (proper : s.axis = .descendant → s.test.isProper = true) :
    i ∈ stepFromAll events s nodes ↔ ∃ u ∈ allUnder [] 0 ns, u.index ∈ nodes ∧ ∃ v, s.Leads u v ∧ v.index = i := by
  simp only [stepFromAll, List.mem_filter, List.mem_range, List.contains_iff_mem, List.mem_flatMap]
  constructor
  · rintro ⟨-, j, hj, found⟩
    obtain ⟨u, hu, rfl⟩ := known j hj
    exact ⟨u, hu, hj, (mem_stepFrom (in_of_forest forest hu) proper).1 found⟩
  · rintro ⟨u, hu, hj, v, leads, rfl⟩
    have inside := index_allUnder ns (leads_mem hu leads)
    rw [forest] at inside
    exact ⟨by omega, u.index, hj, (mem_stepFrom (in_of_forest forest hu) proper).2 ⟨v, leads, rfl⟩⟩

theorem known_stepFromAll (known : Known ns nodes) (proper : s.axis = .descendant → s.test.isProper = true) :
    Known ns (stepFromAll events s nodes) := by
  intro i hi
  obtain ⟨u, hu, -, v, leads, rfl⟩ := (mem_stepFromAll forest known proper).1 hi
  exact ⟨v, leads_mem hu leads, rfl⟩

/-- The last step of a route may ask for attributes. -/
theorem mem_attributeKeys_iff_reaches (known : Known ns nodes) (asks : s.test.isAttribute = true) (axis : s.axis = .child)
    {k : Nat × Nat} :
    k ∈ nodes.flatMap (attributeKeys events s.test) ↔
      ∃ u ∈ allUnder [] 0 ns, u.index ∈ nodes ∧ ∃ t, Reaches [s] u t ∧ t.key = k := by
  rw [List.mem_flatMap]
  constructor
  · rintro ⟨i, hi, key⟩
    obtain ⟨u, hu, rfl⟩ := known i hi
    obtain ⟨j, a, there, asked, rfl⟩ := (mem_attributeKeys (in_of_forest forest hu)).1 key
    exact ⟨u, hu, hi, _, .value axis there asked, rfl⟩
  · rintro ⟨u, hu, hi, t, reaches, rfl⟩
    cases reaches with
    | value _ there asked =>
      exact ⟨u.index, hi, (mem_attributeKeys (in_of_forest forest hu)).2 ⟨_, _, there, asked, rfl⟩⟩
    | step leads => exact absurd leads (not_leads_of_isAttribute asks)

/-- **Following a route by indices is following it in the tree.** -/
theorem mem_follow {steps : List Step} (proper : Proper steps) (last : AttributesLast steps) (known : Known ns nodes)
    {k : Nat × Nat} :
    k ∈ follow events steps nodes ↔
      ∃ u ∈ allUnder [] 0 ns, u.index ∈ nodes ∧ ∃ t, Reaches steps u t ∧ t.key = k := by
  induction steps generalizing nodes with
  | nil =>
    rw [follow, List.mem_map]
    constructor
    · rintro ⟨i, hi, rfl⟩
      obtain ⟨u, hu, rfl⟩ := known i hi
      exact ⟨u, hu, hi, _, .here u, rfl⟩
    · rintro ⟨u, hu, hi, t, reaches, rfl⟩
      cases reaches
      exact ⟨u.index, hi, rfl⟩
  | cons s steps ih =>
    obtain ⟨properHere, properRest⟩ := List.forall_mem_cons.1 proper
    by_cases asks : s.test.isAttribute = true
    · obtain rfl : steps = [] := last.nil_of_isAttribute asks
      rw [follow, if_pos asks]
      exact mem_attributeKeys_iff_reaches forest known asks (axis_of_not_isProper properHere (not_isProper_of_isAttribute asks))
    · rw [follow, if_neg asks, ih properRest last.tail (known_stepFromAll forest known properHere)]
      constructor
      · rintro ⟨v, hv, hi, t, reaches, rfl⟩
        obtain ⟨u, hu, hj, w, leads, index⟩ := (mem_stepFromAll forest known properHere).1 hi
        cases eq_of_index_eq (leads_mem hu leads) hv index
        exact ⟨u, hu, hj, t, .step leads reaches, rfl⟩
      · rintro ⟨u, hu, hj, t, reaches, rfl⟩
        cases reaches with
        | value _ _ asked => rcases asked with test | test <;> exact absurd (by rw [test]; rfl) asks
        | step leads rest =>
          exact ⟨_, leads_mem hu leads, (mem_stepFromAll forest known properHere).2 ⟨u, hu, hj, _, leads, rfl⟩, t, rest, rfl⟩

end Forest

end Path

end Stencil
