import Mathlib.Data.List.Infix
import Stencil.Proofs.Path.Ordered

/-!
# Matching and selecting agree

Whether an element lies on a path is decided backwards, from the last step and along the elements that it is in,
with every ancestor tried after `//`. Selecting goes forwards, from the first step down the tree. For routes of
steps to elements, the two come to the same (`Path.leadsTo_iff_reaches`): an element in a wrapper lies on a path,
as seen from inside the wrapper, if and only if the path selects it from the wrapper (`Path.accepts_iff_selected`).
-/

namespace Stencil

namespace TreeNode

variable {outer : List Event} {i : Nat} {ns : List Part} {u v w : TreeNode}

/-! ## Ancestors -/

theorem outer_of_mem_place (h : v ∈ place outer i ns) : v.outer = outer := by
  induction ns generalizing i with
  | nil => cases h
  | cons n ns ih =>
    rcases List.mem_cons.1 h with rfl | later
    · rfl
    · exact ih later

theorem outer_of_mem_children (h : v ∈ u.children) : v.outer = u.openElements := by
  unfold children at h
  split at h
  · exact outer_of_mem_place h
  · cases h

theorem isElement_of_mem_children (h : v ∈ u.children) : u.part.isElement = true := by
  unfold children at h
  split at h
  · rename_i part
    rw [part]
    rfl
  · cases h

theorem openElements_of_isElement (h : v.part.isElement = true) : ∃ e, v.openElements = e :: v.outer := by
  unfold openElements
  split
  · exact ⟨_, rfl⟩
  · rename_i part
    rw [part] at h
    cases h

mutual

theorem exists_parent_under (n : Part) {outer : List Event} {i : Nat} {v : TreeNode} (hv : v ∈ under outer i n) :
    v = ⟨i, outer, n⟩ ∨ ∃ u ∈ under outer i n, v ∈ u.children := by
  rw [under_eq] at hv ⊢
  rcases List.mem_cons.1 hv with rfl | inside
  · exact .inl rfl
  · right
    cases n with
    | element p name as children q endName =>
      rcases exists_parent_allUnder children inside with child | ⟨u, hu, child⟩
      · exact ⟨_, List.mem_cons_self, child⟩
      · exact ⟨u, List.mem_cons_of_mem _ hu, child⟩
    | leaf e noStart noEnd => cases inside

/-- A node of a forest is one of its parts or the child of a node. -/
theorem exists_parent_allUnder (ns : List Part) {outer : List Event} {i : Nat} {v : TreeNode} (hv : v ∈ allUnder outer i ns) :
    v ∈ place outer i ns ∨ ∃ u ∈ allUnder outer i ns, v ∈ u.children := by
  cases ns with
  | nil => cases hv
  | cons n ns =>
    rcases List.mem_append.1 hv with first | later
    · rcases exists_parent_under n first with rfl | ⟨u, hu, child⟩
      · exact .inl List.mem_cons_self
      · exact .inr ⟨u, List.mem_append_left _ hu, child⟩
    · rcases exists_parent_allUnder ns later with top | ⟨u, hu, child⟩
      · exact .inl (List.mem_cons_of_mem _ top)
      · exact .inr ⟨u, List.mem_append_right _ hu, child⟩

end

/-- A descendant is a child, or the child of a descendant. -/
theorem exists_parent (h : v ∈ u.descendants) : v ∈ u.children ∨ ∃ x ∈ u.descendants, v ∈ x.children := by
  obtain ⟨i, outer, n⟩ := u
  cases n with
  | element p name as children q endName => exact exists_parent_allUnder children h
  | leaf e noStart noEnd => cases h

theorem descendants_trans (h : v ∈ u.descendants) : v.descendants ⊆ u.descendants := by
  obtain ⟨i, outer, n⟩ := u
  cases n with
  | element p name as children q endName => exact descendants_subset_allUnder children h
  | leaf e noStart noEnd => cases h

/-- What holds of children and is handed on to children holds of descendants. -/
theorem descendants_induction {motive : TreeNode → Prop} (children : ∀ v ∈ u.children, motive v)
    (deeper : ∀ x ∈ u.descendants, motive x → ∀ v ∈ x.children, motive v) : ∀ v ∈ u.descendants, motive v := by
  intro v hv
  induction hn : v.index using Nat.strongRecOn generalizing v with
  | ind n ih =>
    subst hn
    rcases exists_parent hv with child | ⟨x, hx, child⟩
    · exact children v child
    · have before := index_descendants (children_subset_descendants x child)
      exact deeper x hx (ih _ before x hx rfl) v child

/-- The elements open in a node are open around what is in it. -/
theorem openElements_suffix (h : v ∈ u.descendants) : u.openElements <:+ v.outer := by
  refine descendants_induction (motive := fun v => u.openElements <:+ v.outer) (fun v child => ?_)
    (fun x _ inside v child => ?_) v h
  · rw [outer_of_mem_children child]
  · rw [outer_of_mem_children child]
    obtain ⟨e, isOpen⟩ := openElements_of_isElement (isElement_of_mem_children child)
    rw [isOpen]
    exact inside.trans (List.suffix_cons _ _)

/-- Each of the elements that a descendant is in, up to some node, is one in that node. -/
theorem exists_ancestor (h : v ∈ u.descendants) {k : Nat} (inside : k + u.openElements.length < v.outer.length) :
    ∃ x ∈ u.descendants, x.part.isElement = true ∧ v ∈ x.descendants ∧ x.openElements = v.outer.drop k := by
  revert k
  refine descendants_induction (motive := fun v => ∀ {k : Nat}, k + u.openElements.length < v.outer.length →
    ∃ x ∈ u.descendants, x.part.isElement = true ∧ v ∈ x.descendants ∧ x.openElements = v.outer.drop k)
    (fun v child k inside => ?_) (fun x hx ih v child k inside => ?_) v h
  · rw [outer_of_mem_children child] at inside
    omega
  · have element := isElement_of_mem_children child
    have here := children_subset_descendants x child
    cases k with
    | zero => exact ⟨x, hx, element, here, (outer_of_mem_children child).symm⟩
    | succ k =>
      obtain ⟨e, isOpen⟩ := openElements_of_isElement element
      have outer : v.outer = e :: x.outer := (outer_of_mem_children child).trans isOpen
      rw [outer] at inside ⊢
      rw [List.length_cons] at inside
      obtain ⟨y, hy, element, above, isOpen⟩ := ih (k := k) (by omega)
      exact ⟨y, hy, element, descendants_trans above here, isOpen⟩

end TreeNode

/-- The test of a step to elements: a name or a star. -/
def NodeTest.isElement : NodeTest → Bool
  | element _ | anyElement => true
  | _ => false

namespace Path

open TreeNode

/-! ## Steps to elements -/

variable {s : Step} {steps : List Step} {axis : Axis} {u v w : TreeNode} {t : Target}

theorem isElement_of_passes (asks : s.test.isElement = true) {n : Part} (h : n.Passes s) : n.isElement = true := by
  cases n with
  | element => rfl
  | leaf e noStart noEnd =>
    rw [h.1] at asks
    cases asks

theorem isProper_of_isElement {test : NodeTest} (h : test.isElement = true) : test.isProper = true := by
  cases test with
  | element | anyElement => rfl
  | _ => cases h

theorem not_isAttribute_of_isElement {test : NodeTest} (h : test.isElement = true) : test.isAttribute = false := by
  cases test with
  | element | anyElement => rfl
  | _ => cases h

theorem moves_of_isElement {test : NodeTest} (h : test.isElement = true) : test ≠ .self := by
  rintro rfl
  cases h

theorem reaches_singleton (asks : s.test.isElement = true) : Reaches [s] u t ↔ ∃ v, s.Leads u v ∧ t = .whole v := by
  constructor
  · intro reaches
    cases reaches with
    | value _ _ asked => rcases asked with test | test <;> (rw [test] at asks; cases asks)
    | step leads rest =>
      cases rest
      exact ⟨_, leads, rfl⟩
  · rintro ⟨v, leads, rfl⟩
    exact .step leads (.here v)

theorem reaches_cons (more : steps ≠ []) : Reaches (s :: steps) u t ↔ ∃ v, s.Leads u v ∧ Reaches steps v t := by
  constructor
  · intro reaches
    cases reaches with
    | value => exact absurd rfl more
    | step leads rest => exact ⟨_, leads, rest⟩
  · rintro ⟨v, leads, rest⟩
    exact .step leads rest

/-- A step to elements may be taken last. -/
theorem reaches_snoc (asks : s.test.isElement = true) :
    Reaches (steps ++ [s]) u t ↔ ∃ x v, Reaches steps u (.whole x) ∧ s.Leads x v ∧ t = .whole v := by
  induction steps generalizing u with
  | nil =>
    rw [List.nil_append, reaches_singleton asks]
    constructor
    · rintro ⟨v, leads, rfl⟩
      exact ⟨u, v, .here u, leads, rfl⟩
    · rintro ⟨x, v, here, leads, rfl⟩
      cases here
      exact ⟨v, leads, rfl⟩
  | cons s' steps ih =>
    rw [List.cons_append, reaches_cons (by simp)]
    constructor
    · rintro ⟨y, first, rest⟩
      obtain ⟨x, v, between, leads, rfl⟩ := ih.1 rest
      exact ⟨x, v, .step first between, leads, rfl⟩
    · rintro ⟨x, v, between, leads, rfl⟩
      cases between with
      | step first between => exact ⟨_, first, ih.2 ⟨x, v, between, leads, rfl⟩⟩

/-- Steps to elements lead to elements inside the node where they start. -/
theorem mem_descendants_of_reaches (more : steps ≠ []) (asks : ∀ s ∈ steps, s.test.isElement = true)
    (reaches : Reaches steps u t) : ∃ v ∈ u.descendants, v.part.isElement = true ∧ t = .whole v := by
  induction steps generalizing u with
  | nil => exact absurd rfl more
  | cons s steps ih =>
    obtain ⟨asksHere, asksRest⟩ := List.forall_mem_cons.1 asks
    by_cases last : steps = []
    · subst last
      obtain ⟨v, leads, rfl⟩ := (reaches_singleton asksHere).1 reaches
      obtain ⟨inside, passes⟩ := (leads_iff (moves_of_isElement asksHere)).1 leads
      exact ⟨v, alongAxis_subset _ u inside, isElement_of_passes asksHere passes, rfl⟩
    · obtain ⟨x, leads, rest⟩ := (reaches_cons last).1 reaches
      obtain ⟨v, inside, element, rfl⟩ := ih last asksRest rest
      have here := alongAxis_subset _ u ((leads_iff (moves_of_isElement asksHere)).1 leads).1
      exact ⟨v, descendants_trans here inside, element, rfl⟩

theorem openElements_of_passes (h : v.part.isElement = true) : ∃ e, v.openElements = e :: v.outer ∧
    ∀ s : Step, s.matchesElement e = true ↔ v.part.Passes s := by
  obtain ⟨i, outer, n⟩ := v
  cases n with
  | element p name as children q endName =>
    refine ⟨.startTag p name as, rfl, fun s => ?_⟩
    simp [Step.matchesElement, Part.Passes, Option.all_eq_true]
  | leaf e noStart noEnd => cases h

/-! ## Backwards and forwards -/

/-- The elements that are open in a node, without the outermost one. -/
abbrev within (v : TreeNode) : List Event := v.openElements.dropLast

section Wrapper

variable {tag : Event} (wrapper : w.openElements = [tag])

include wrapper

theorem outer_ne_nil (hv : v ∈ w.descendants) : v.outer ≠ [] := by
  obtain ⟨before, outer⟩ := openElements_suffix hv
  rw [← outer, wrapper]
  simp

theorem within_eq {e : Event} (hv : v ∈ w.descendants) (isOpen : v.openElements = e :: v.outer) :
    within v = e :: v.outer.dropLast := by
  rw [within, isOpen, List.dropLast_cons_of_ne_nil (outer_ne_nil wrapper hv)]

theorem within_ne_nil (hv : v ∈ w.descendants) (element : v.part.isElement = true) : within v ≠ [] := by
  obtain ⟨e, isOpen⟩ := openElements_of_isElement element
  rw [within_eq wrapper hv isOpen]
  simp

/-- A node in the wrapper is a child of it if no element is open around it within the wrapper. -/
theorem mem_children_iff (hv : v ∈ w.descendants) : v ∈ w.children ↔ v.outer.dropLast = [] := by
  constructor
  · intro child
    rw [outer_of_mem_children child, wrapper]
    rfl
  · intro none
    rcases exists_parent hv with child | ⟨x, hx, child⟩
    · exact child
    · rw [outer_of_mem_children child] at none
      exact absurd none (within_ne_nil wrapper hx (isElement_of_mem_children child))

/-- The elements open in an ancestor are the outer ones of those around a node. -/
theorem exists_dropLast_outer {x : TreeNode} (hx : x ∈ w.descendants) (element : x.part.isElement = true)
    (led : v ∈ x.descendants) : ∃ before, v.outer.dropLast = before ++ within x := by
  obtain ⟨before, outer⟩ := openElements_suffix led
  refine ⟨before, ?_⟩
  rw [← outer, List.dropLast_append_of_ne_nil]
  intro none
  exact within_ne_nil wrapper hx element (by rw [within, none]; rfl)

/-- Each of the elements around a node is an ancestor. -/
theorem exists_within_eq_drop (hv : v ∈ w.descendants) {k : Nat} (low : k < v.outer.dropLast.length) :
    ∃ x ∈ w.descendants, x.part.isElement = true ∧ v ∈ x.descendants ∧ within x = v.outer.dropLast.drop k := by
  have inside : k + w.openElements.length < v.outer.length := by
    rw [List.length_dropLast] at low
    rw [wrapper, List.length_singleton]
    omega
  obtain ⟨x, hx, element, above, isOpen⟩ := exists_ancestor hv inside
  refine ⟨x, hx, element, above, ?_⟩
  rw [within, isOpen, List.dropLast_eq_take, List.length_drop, List.dropLast_eq_take, List.drop_take,
    Nat.sub_right_comm]

/-- The elements around a node, within the wrapper, are those from which an axis leads to it: only the innermost one
for the child axis. -/
theorem exists_drop_iff (hv : v ∈ w.descendants) (axis : Axis) (holds : List Event → Prop) :
    (∃ k < v.outer.dropLast.length, (axis = .child → k = 0) ∧ holds (v.outer.dropLast.drop k)) ↔
      ∃ x ∈ w.descendants, x.part.isElement = true ∧ v ∈ alongAxis axis x ∧ holds (within x) := by
  constructor
  · rintro ⟨k, low, only, here⟩
    cases axis with
    | child =>
      rw [only rfl] at here
      rcases exists_parent hv with child | ⟨x, hx, child⟩
      · rw [(mem_children_iff wrapper hv).1 child] at low
        cases low
      · rw [outer_of_mem_children child] at here
        exact ⟨x, hx, isElement_of_mem_children child, child, here⟩
    | descendant =>
      obtain ⟨x, hx, element, above, same⟩ := exists_within_eq_drop wrapper hv low
      exact ⟨x, hx, element, above, same ▸ here⟩
  · rintro ⟨x, hx, element, led, here⟩
    have some := List.length_pos_iff.2 (within_ne_nil wrapper hx element)
    cases axis with
    | child =>
      have outer : v.outer.dropLast = within x := by rw [outer_of_mem_children led]
      rw [outer]
      exact ⟨0, some, fun _ => rfl, here⟩
    | descendant =>
      obtain ⟨before, around⟩ := exists_dropLast_outer wrapper hx element led
      rw [around]
      refine ⟨before.length, ?_, by simp, ?_⟩
      · rw [List.length_append]
        omega
      · rw [List.drop_left]
        exact here

end Wrapper

/-- The last step is passed, and the steps before it lead to the parent, or to an ancestor. -/
theorem leadsTo_cons {absolute : Bool} (more : steps ≠ []) {e : Event} {outer : List Event} :
    Route.leadsTo absolute (s :: steps) (e :: outer) = true ↔
      s.matchesElement e = true ∧
        ∃ k < outer.length, (s.axis = .child → k = 0) ∧ Route.leadsTo absolute steps (outer.drop k) = true := by
  rw [Route.leadsTo, Bool.and_eq_true]
  case x_2 => exact more
  refine and_congr_right fun _ => ?_
  cases axis : s.axis with
  | child =>
    constructor
    · intro here
      cases outer with
      | nil => cases steps <;> simp [Route.leadsTo] at here
      | cons e outer => exact ⟨0, Nat.succ_pos _, fun _ => rfl, here⟩
    · rintro ⟨k, -, only, here⟩
      rw [only rfl] at here
      exact here
  | descendant => simp

/-- The axis of the first step of a route: an anchored one starts with the children of the node. -/
def firstAxis (absolute : Bool) : Axis := if absolute then .child else .descendant

/-- The first step is passed at a child of the wrapper, or at any depth. -/
theorem leadsTo_singleton {tag : Event} (wrapper : w.openElements = [tag]) (absolute : Bool)
    (asks : s.test.isElement = true) (hv : v ∈ w.descendants) (element : v.part.isElement = true) :
    Route.leadsTo absolute [s] (within v) = true ↔ Reaches (along (firstAxis absolute) [s]) w (.whole v) := by
  obtain ⟨e, isOpen, passes⟩ := openElements_of_passes element
  have asksFirst : ({ s with axis := firstAxis absolute } : Step).test.isElement = true := asks
  have first : v ∈ alongAxis (firstAxis absolute) w ↔ (!absolute || v.outer.dropLast.isEmpty) = true := by
    cases absolute with
    | false => exact ⟨fun _ => rfl, fun _ => hv⟩
    | true => exact (mem_children_iff wrapper hv).trans (by simp)
  rw [within_eq wrapper hv isOpen, Route.leadsTo, Bool.and_eq_true, passes, ← first, along, reaches_singleton asksFirst]
  constructor
  · rintro ⟨passed, led⟩
    exact ⟨v, (leads_iff (moves_of_isElement asksFirst)).2 ⟨led, passed⟩, rfl⟩
  · rintro ⟨v', leads, same⟩
    cases same
    exact ((leads_iff (moves_of_isElement asksFirst)).1 leads).symm

/-- **A path that is followed backwards from an element leads there forwards.** -/
theorem leadsTo_iff_reaches {tag : Event} (wrapper : w.openElements = [tag]) (absolute : Bool) (more : steps ≠ [])
    (asks : ∀ s ∈ steps, s.test.isElement = true) (hv : v ∈ w.descendants) (element : v.part.isElement = true) :
    Route.leadsTo absolute steps (within v) = true ↔
      Reaches (along (firstAxis absolute) steps.reverse) w (.whole v) := by
  induction steps generalizing v with
  | nil => exact absurd rfl more
  | cons s steps ih =>
    obtain ⟨asksHere, asksRest⟩ := List.forall_mem_cons.1 asks
    by_cases last : steps = []
    · subst last
      exact leadsTo_singleton wrapper absolute asksHere hv element
    · have before : steps.reverse ≠ [] := by simpa using last
      have asksBefore : ∀ s ∈ along (firstAxis absolute) steps.reverse, s.test.isElement = true :=
        forall_test_along (p := (·.isElement = true)) _ (by simpa using asksRest)
      have leads {x : TreeNode} : s.Leads x v ↔ v ∈ alongAxis s.axis x ∧ v.part.Passes s :=
        leads_iff (moves_of_isElement asksHere)
      obtain ⟨e, isOpen, passes⟩ := openElements_of_passes element
      rw [within_eq wrapper hv isOpen, List.reverse_cons, along_append before, leadsTo_cons last, passes,
        exists_drop_iff wrapper hv s.axis fun outer => Route.leadsTo absolute steps outer = true, reaches_snoc asksHere]
      constructor
      · rintro ⟨passed, x, hx, element, led, here⟩
        exact ⟨x, v, (ih last asksRest hx element).1 here, leads.2 ⟨led, passed⟩, rfl⟩
      · rintro ⟨x, v', reaches, leadsLast, same⟩
        cases same
        obtain ⟨led, passed⟩ := leads.1 leadsLast
        obtain ⟨_, hx, element, same⟩ := mem_descendants_of_reaches (along_ne_nil before) asksBefore reaches
        cases same
        exact ⟨passed, x, hx, element, led, (ih last asksRest hx element).2 reaches⟩

/-! ## A forest in a wrapper -/

/-- The selected events are the elements in a node that are accepted, each once and in order. What is accepted is a
stack of open elements, without the node itself. -/
def Chosen (w : TreeNode) (accepts : List Event → Bool) (selected : List Event) : Prop :=
  ∃ vs : List TreeNode, vs.Pairwise (fun v v' => v.index < v'.index) ∧
    (∀ v ∈ vs, v ∈ w.descendants ∧ v.part.isElement = true) ∧
    (∀ v ∈ w.descendants, v.part.isElement = true → (accepts v.openElements.dropLast = true ↔ v ∈ vs)) ∧
    selected = vs.flatMap fun v => v.part.events

/-- Targets that are all elements in a node. -/
theorem exists_elements {ts : List Target}
    (inside : ∀ t ∈ ts, ∃ v ∈ u.descendants, v.part.isElement = true ∧ t = .whole v) :
    ∃ vs : List TreeNode, ts = vs.map .whole ∧ ∀ v ∈ vs, v ∈ u.descendants ∧ v.part.isElement = true := by
  induction ts with
  | nil => exact ⟨[], rfl, by simp⟩
  | cons t ts ih =>
    obtain ⟨⟨v, hv, element, rfl⟩, rest⟩ := List.forall_mem_cons.1 inside
    obtain ⟨vs, rfl, all⟩ := ih rest
    exact ⟨v :: vs, rfl, List.forall_mem_cons.2 ⟨⟨hv, element⟩, all⟩⟩

/-- From a wrapper, a path of one route selects the elements from which the route can be followed backwards. -/
theorem chosen_select {n : Part} {tag : Event} (wrapper : (⟨0, [], n⟩ : TreeNode).openElements = [tag])
    (element : n.isElement = true) (absolute : Bool) (more : steps ≠ []) (asks : ∀ s ∈ steps, s.test.isElement = true)
    {q : Path} {start : Bool} (single : q.routes = [⟨start, along (firstAxis absolute) steps⟩]) :
    Chosen ⟨0, [], n⟩ (Route.leadsTo absolute steps.reverse) (q.select n.events) := by
  have asksAlong : ∀ s ∈ along (firstAxis absolute) steps, s.test.isElement = true :=
    forall_test_along (p := (·.isElement = true)) _ asks
  have proper : ∀ r ∈ q.routes, Proper r.steps := by
    rw [single, List.forall_mem_singleton]
    exact fun s hs _ => isProper_of_isElement (asksAlong s hs)
  have last : ∀ r ∈ q.routes, AttributesLast r.steps := by
    rw [single, List.forall_mem_singleton]
    exact fun s hs => not_isAttribute_of_isElement (asksAlong s (List.mem_of_mem_dropLast hs))
  have forest : Part.eventsOf [n] = n.events := by simp [Part.eventsOf]
  obtain ⟨ts, sorted, meant, selected⟩ := select_eq_flatMap forest proper last
  have reached : ∀ t, t ∈ ts ↔ Reaches (along (firstAxis absolute) steps) ⟨0, [], n⟩ t := by
    intro t
    rw [meant]
    simp [Selects, single, place, element]
  obtain ⟨vs, rfl, inside⟩ := exists_elements fun t ht =>
    mem_descendants_of_reaches (along_ne_nil more) asksAlong ((reached t).1 ht)
  have back : ∀ v ∈ descendants ⟨0, [], n⟩, v.part.isElement = true →
      (Route.leadsTo absolute steps.reverse (within v) = true ↔ v ∈ vs) := by
    intro v hv element
    rw [leadsTo_iff_reaches wrapper absolute (by simpa using more) (by simpa using asks) hv element,
      List.reverse_reverse, ← reached]
    simp
  refine ⟨vs, (List.pairwise_map.1 sorted).imp fun before => ?_, inside, back, ?_⟩
  · rcases before with less | ⟨-, less⟩
    · exact less
    · cases less
  · rw [selected, List.flatMap_map]
    rfl

/-- **Matching and selecting agree.** For a route of steps to elements, an element in a wrapper is accepted, with the
elements that it is in below the wrapper, if and only if the route after `//` selects it from the wrapper; and the
anchored route accepts it if and only if the route itself does. -/
theorem accepts_iff_selected {P : Text} {p : Path} {r : Route} (parsed : Path.parse P = .ok p) (single : p.routes = [r])
    (asks : ∀ s ∈ r.steps, s.test.isElement = true) (starts : ∀ c ∈ P.head?, c ≠ '/' ∧ c.isWhite = false)
    (position endPosition : Position) (name endName : QName) (attributes : Attributes) (forest : List Part) :
    let w : TreeNode := ⟨0, [], .element position name attributes forest endPosition endName⟩
    ∃ anywhere anchored, Path.parse ("//" ++ P) = .ok anywhere ∧ Path.parse ("/" ++ P) = .ok anchored ∧
      Chosen w p.accepts (anywhere.select w.part.events) ∧ Chosen w anchored.accepts (p.select w.part.events) := by
  intro w
  obtain ⟨relative, more, child, anywhere, anchored⟩ := parse_route parsed single starts
  have accepts : p.accepts = Route.leadsTo false r.steps.reverse := by
    funext stack
    simp [Path.accepts, single, Route.accepts, relative]
  have anchoredAccepts : Path.accepts ⟨"/" ++ P, [⟨true, r.steps⟩]⟩ = Route.leadsTo true r.steps.reverse := by
    funext stack
    simp [Path.accepts, Route.accepts]
  refine ⟨_, _, anywhere, anchored, ?_, ?_⟩
  · rw [accepts]
    exact chosen_select rfl rfl false more asks rfl
  · have itself : p.routes = [⟨r.absolute, along (firstAxis true) r.steps⟩] := by
      rw [single, firstAxis, if_pos rfl, child]
    rw [anchoredAccepts]
    exact chosen_select rfl rfl true more asks itself

/-- An element that is found only if an outer ancestor of the same name is tried after the inner one has failed. -/
theorem accepts_iff_selected_retried :
    let P : Text := "a/c//b[@k]"
    let r : Route := ⟨false, [⟨.child, .element "a", none⟩, ⟨.child, .element "c", none⟩,
      ⟨.descendant, .element "b", some ⟨"k", none⟩⟩]⟩
    let element (name : Text) (attributes : Attributes) (children : List Part) : Part :=
      .element ⟨1, 0⟩ (.plain name) attributes children ⟨2, 0⟩ (.plain name)
    let w : TreeNode := ⟨0, [], element "w" [] [element "a" [] [element "c" [] [.leaf (.comment ⟨1, 9⟩ "C") rfl rfl,
      element "c" [] [element "b" [⟨.plain "k", []⟩] [], element "b" [] []]]]]⟩
    Path.parse P = .ok ⟨P, [r]⟩ ∧ (∀ s ∈ r.steps, s.test.isElement = true) ∧
      (∀ c ∈ P.head?, c ≠ '/' ∧ c.isWhite = false) ∧
      ∃ anywhere anchored, Path.parse ("//" ++ P) = .ok anywhere ∧ Path.parse ("/" ++ P) = .ok anchored ∧
        Chosen w (Path.accepts ⟨P, [r]⟩) (anywhere.select w.part.events) ∧
        Chosen w anchored.accepts (Path.select ⟨P, [r]⟩ w.part.events) := by
  intro P r element w
  have parsed : Path.parse P = .ok ⟨P, [r]⟩ := by decide
  have asks : ∀ s ∈ r.steps, s.test.isElement = true := by decide
  have starts : ∀ c ∈ P.head?, c ≠ '/' ∧ c.isWhite = false := by
    rintro c ⟨⟩
    exact ⟨by decide, by decide⟩
  exact ⟨parsed, asks, starts, accepts_iff_selected parsed rfl asks starts ..⟩

end Path

end Stencil
