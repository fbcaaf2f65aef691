import Mathlib.Data.List.Sort
import Stencil.Proofs.Path.Meaning

/-!
# Selection in the order of the document

A path selects what it means, each element, text and attribute once and in the order of the document
(`Path.select_in_order`), although it finds them route by route, step by step and possibly more than once.

A step after `//` has to lead to elements or texts for that. Steps to the element itself and to attributes
start from the nodes before them even after `//`, which is not what the notation says.
-/

namespace Stencil

namespace Path

open TreeNode

variable {events : List Event} {u v : TreeNode} {i : Nat}

/-! ## Targets in order -/

/-- What can be selected in a forest. -/
def targets (ns : List Part) : List Target := (allUnder [] 0 ns).flatMap Target.ofNode

theorem sorted_ofNode (v : TreeNode) : (Target.ofNode v).Pairwise Target.Before := by
  refine List.pairwise_cons.2 ⟨fun t ht => ?_, List.pairwise_map.2 ?_⟩
  · obtain ⟨a, -, rfl⟩ := List.mem_map.1 ht
    exact .inr ⟨rfl, Nat.succ_pos _⟩
  · have numbers : (v.part.attributes.zipIdx.map Prod.snd).Pairwise (· < ·) := by
      rw [List.zipIdx_map_snd]
      exact List.pairwise_lt_range'
    exact (List.pairwise_map.1 numbers).imp fun less => .inr ⟨rfl, Nat.succ_lt_succ less⟩

theorem index_of_mem_ofNode {t : Target} (h : t ∈ Target.ofNode v) : t.key.1 = v.index := by
  rcases List.mem_cons.1 h with rfl | h
  · rfl
  · obtain ⟨a, -, rfl⟩ := List.mem_map.1 h
    rfl

/-- The targets in a forest come in the order of the document. -/
theorem sorted_targets (ns : List Part) : (targets ns).Pairwise Target.Before := by
  refine List.pairwise_flatMap.2 ⟨fun v _ => sorted_ofNode v, (sorted_allUnder [] 0 ns).imp fun less t ht u hu => ?_⟩
  left
  rw [index_of_mem_ofNode ht, index_of_mem_ofNode hu]
  exact less

/-- A target is known by its key. -/
theorem eq_of_key_eq {ns : List Part} {t u : Target} (ht : t ∈ targets ns) (hu : u ∈ targets ns) (same : t.key = u.key) :
    t = u := by
  have distinct : ((targets ns).map Target.key).Nodup := by
    refine List.pairwise_map.2 ((sorted_targets ns).imp fun {t u} before same => ?_)
    rcases before with less | ⟨-, less⟩
    · exact Nat.ne_of_lt less (congrArg Prod.fst same)
    · exact Nat.ne_of_lt less (congrArg Prod.snd same)
  exact List.inj_on_of_nodup_map distinct ht hu same

theorem reaches_mem {ns : List Part} {steps : List Step} {t : Target} (hu : u ∈ allUnder [] 0 ns)
    (reaches : Reaches steps u t) : t ∈ targets ns := by
  induction reaches with
  | here u => exact List.mem_flatMap.2 ⟨u, hu, List.mem_cons_self⟩
  | @value s u k a _ there _ =>
    refine List.mem_flatMap.2 ⟨u, hu, List.mem_cons_of_mem _ (List.mem_map.2 ⟨(a, k), ?_, rfl⟩)⟩
    exact List.mk_mem_zipIdx_iff_getElem?.2 there
  | step leads _ ih => exact ih (leads_mem hu leads)

theorem selects_mem {p : Path} {ns : List Part} {t : Target} (h : p.Selects ns t) : t ∈ targets ns := by
  obtain ⟨r, -, v, outermost, -, reaches⟩ := h
  exact reaches_mem (place_subset_allUnder [] 0 ns outermost) reaches

/-- The keys of what a path selects. -/
def keys (p : Path) (events : List Event) : List (Nat × Nat) :=
  p.routes.flatMap fun r => follow events r.steps (topLevel events)

section Forest

variable {p : Path} {ns : List Part} (forest : Part.eventsOf ns = events)

include forest

theorem mem_topLevel : i ∈ topLevel events ↔ ∃ v ∈ place [] 0 ns, v.part.isElement = true ∧ v.index = i := by
  have all : Part.eventsOf ns <+: events.drop 0 := by
    rw [forest]
    exact List.prefix_refl _
  have whole := indices_child ns [] all (Nat.le_refl _)
  rw [Nat.zero_add, forest] at whole
  have start : ∀ v ∈ place [] 0 ns, events[v.index]?.any (·.isStart) = v.part.isElement := by
    intro v hv
    rw [getElem?_node (in_of_forest forest (place_subset_allUnder [] 0 ns hv))]
    cases v.part with
    | element => rfl
    | leaf e noStart noEnd => simpa [Part.events, Part.isElement] using noStart
  rw [topLevel, whole, List.mem_filter, List.mem_map]
  constructor
  · rintro ⟨⟨v, hv, rfl⟩, isStart⟩
    exact ⟨v, hv, (start v hv).symm.trans isStart, rfl⟩
  · rintro ⟨v, hv, element, rfl⟩
    exact ⟨⟨v, hv, rfl⟩, (start v hv).trans element⟩

/-- The keys of what a path selects are those of what it means. -/
theorem mem_keys (proper : ∀ r ∈ p.routes, Proper r.steps) (last : ∀ r ∈ p.routes, AttributesLast r.steps)
    {k : Nat × Nat} : k ∈ p.keys events ↔ ∃ t, p.Selects ns t ∧ t.key = k := by
  have known : Known ns (topLevel events) := by
    intro i hi
    obtain ⟨v, hv, -, index⟩ := (mem_topLevel forest).1 hi
    exact ⟨v, place_subset_allUnder [] 0 ns hv, index⟩
  rw [keys, List.mem_flatMap]
  constructor
  · rintro ⟨r, hr, followed⟩
    obtain ⟨u, hu, top, t, reaches, key⟩ := (mem_follow forest (proper r hr) (last r hr) known).1 followed
    obtain ⟨v, hv, element, index⟩ := (mem_topLevel forest).1 top
    cases eq_of_index_eq (place_subset_allUnder [] 0 ns hv) hu index
    exact ⟨t, ⟨r, hr, u, hv, element, reaches⟩, key⟩
  · rintro ⟨t, ⟨r, hr, v, hv, element, reaches⟩, key⟩
    exact ⟨r, hr, (mem_follow forest (proper r hr) (last r hr) known).2 ⟨v, place_subset_allUnder [] 0 ns hv,
      (mem_topLevel forest).2 ⟨v, hv, element, rfl⟩, t, reaches, key⟩⟩

/-- What is selected at the index of a node. -/
theorem selectedAt_node (hv : v ∈ allUnder [] 0 ns) (keys : List (Nat × Nat)) :
    selectedAt events keys v.index = ((Target.ofNode v).filter (keys.contains ·.key)).flatMap Target.events := by
  have there := in_of_forest forest hv
  have position : (events[v.index]?.getD .blank).position = v.part.position := by
    rw [getElem?_node there]
    cases v.part <;> rfl
  have values : ∀ l : List (Attribute × Nat), (l.map fun x => Target.value v x.2 x.1).flatMap Target.events =
      l.map fun x => Event.text v.part.position x.1.text := by
    intro l
    rw [List.flatMap_map, ← List.flatMap_pure_eq_map]
    rfl
  have key : (Target.whole v).key = (v.index, 0) := rfl
  rw [selectedAt, subtree_node there, attributesAt_node there, position, Target.ofNode, List.filter_cons, List.filter_map,
    key]
  by_cases chosen : keys.contains (v.index, 0) = true
  · rw [if_pos chosen, if_pos chosen, List.flatMap_cons, values]
    rfl
  · rw [if_neg chosen, if_neg chosen, values]
    rfl

end Forest

theorem flatMap_filter_eq {α β : Type} {f : α → List β} {keep : α → Bool} {l : List α}
    (none : ∀ a ∈ l, keep a = false → f a = []) : (l.filter keep).flatMap f = l.flatMap f := by
  induction l with
  | nil => rfl
  | cons a l ih =>
    obtain ⟨first, rest⟩ := List.forall_mem_cons.1 none
    rw [List.flatMap_cons, ← ih rest]
    by_cases kept : keep a = true
    · rw [List.filter_cons_of_pos kept, List.flatMap_cons]
    · simp only [Bool.not_eq_true] at kept
      rw [List.filter_cons_of_neg (by simp [kept]), first kept, List.nil_append]

/-- Indices at which there is nothing may be left out. -/
theorem flatMap_range_eq {α : Type} {f : Nat → List α} {n : Nat} {js : List Nat} (sorted : js.Pairwise (· < ·))
    (low : ∀ j ∈ js, j < n) (none : ∀ i, i ∉ js → f i = []) : (List.range n).flatMap f = js.flatMap f := by
  have chosen : (List.range n).filter (js.contains ·) = js := by
    refine List.Pairwise.eq_of_mem_iff (List.Pairwise.filter _ List.pairwise_lt_range) sorted fun j => ?_
    simp only [List.mem_filter, List.mem_range, List.contains_iff_mem]
    exact ⟨And.right, fun hj => ⟨low j hj, hj⟩⟩
  calc (List.range n).flatMap f
    _ = ((List.range n).filter (js.contains ·)).flatMap f :=
      (flatMap_filter_eq fun i _ other => none i (by simpa using other)).symm
    _ = js.flatMap f := by rw [chosen]

/-- Nothing is selected at an index that no key has. -/
theorem selectedAt_eq_nil {keys : List (Nat × Nat)} (none : ∀ k ∈ keys, k.1 ≠ i) : selectedAt events keys i = [] := by
  have free : ∀ k, (i, k) ∉ keys := fun k there => none _ there rfl
  simp [selectedAt, free]

/-- **What a path selects is what it means, each target once and in the order of the document.** -/
theorem select_eq_flatMap {p : Path} {ns : List Part} (forest : Part.eventsOf ns = events)
    (proper : ∀ r ∈ p.routes, Proper r.steps) (last : ∀ r ∈ p.routes, AttributesLast r.steps) :
    ∃ ts : List Target, ts.Pairwise Target.Before ∧ (∀ t, t ∈ ts ↔ p.Selects ns t) ∧
      p.select events = ts.flatMap Target.events := by
  have meant : ∀ t ∈ targets ns, t.key ∈ p.keys events ↔ p.Selects ns t := by
    intro t ht
    rw [mem_keys forest proper last]
    constructor
    · rintro ⟨u, selects, same⟩
      exact eq_of_key_eq (selects_mem selects) ht same ▸ selects
    · exact fun selects => ⟨t, selects, rfl⟩
  have elsewhere : ∀ i, i ∉ (allUnder [] 0 ns).map TreeNode.index → selectedAt events (p.keys events) i = [] := by
    intro i none
    refine selectedAt_eq_nil fun k hk same => none ?_
    obtain ⟨t, selects, rfl⟩ := (mem_keys forest proper last).1 hk
    obtain ⟨v, hv, ht⟩ := List.mem_flatMap.1 (selects_mem selects)
    exact List.mem_map.2 ⟨v, hv, (index_of_mem_ofNode ht).symm.trans same⟩
  have inside : ∀ i ∈ (allUnder [] 0 ns).map TreeNode.index, i < events.length := by
    intro i hi
    obtain ⟨v, hv, rfl⟩ := List.mem_map.1 hi
    have between := index_allUnder ns hv
    rw [forest] at between
    omega
  refine ⟨(targets ns).filter ((p.keys events).contains ·.key), (sorted_targets ns).filter _, fun t => ?_, ?_⟩
  · rw [List.mem_filter, List.contains_iff_mem]
    exact ⟨fun ⟨ht, key⟩ => (meant t ht).1 key, fun selects =>
      ⟨selects_mem selects, (meant t (selects_mem selects)).2 selects⟩⟩
  · calc p.select events
      _ = (List.range events.length).flatMap (selectedAt events (p.keys events)) := rfl
      _ = ((allUnder [] 0 ns).map TreeNode.index).flatMap (selectedAt events (p.keys events)) :=
        flatMap_range_eq (List.pairwise_map.2 (sorted_allUnder [] 0 ns)) inside elsewhere
      _ = (allUnder [] 0 ns).flatMap fun v =>
          ((Target.ofNode v).filter ((p.keys events).contains ·.key)).flatMap Target.events := by
        rw [List.flatMap_map]
        exact List.flatMap_congr fun v hv => selectedAt_node forest hv _
      _ = _ := by
        rw [targets, List.filter_flatMap, List.flatMap_assoc]

instance (steps : List Step) : Decidable (Proper steps) :=
  inferInstanceAs (Decidable (∀ s ∈ steps, s.axis = .descendant → s.test.isProper = true))

/-- **An accepted path selects from the tree of a stream what it means.** Each element, text and attribute that the
steps of a route lead to is selected once, in the order of the document. -/
theorem select_in_order {source : Text} {p : Path} (accepted : Path.parse source = .ok p)
    (proper : ∀ r ∈ p.routes, Proper r.steps) {es : List Event} (nested : Event.Nested es) :
    (∃ ns, Part.eventsOf ns = es) ∧ ∀ ns, Part.eventsOf ns = es →
      ∃ ts : List Target, ts.Pairwise Target.Before ∧ (∀ t, t ∈ ts ↔ p.Selects ns t) ∧
        p.select es = ts.flatMap Target.events :=
  ⟨Part.nested_iff_parts.1 nested, fun _ forest => select_eq_flatMap forest proper (attributesLast_of_parse accepted)⟩

/-- An element that two routes lead to, and that has another one of its name in it. -/
theorem select_in_order_overlapping :
    let p : Path := ⟨"//b|*/@k|b/.//text()", [⟨false, [⟨.descendant, .element "b", none⟩]⟩,
      ⟨false, [⟨.child, .anyElement, none⟩, ⟨.child, .attributeNamed "k", none⟩]⟩,
      ⟨false, [⟨.child, .element "b", none⟩, ⟨.child, .self, none⟩, ⟨.descendant, .text, none⟩]⟩]⟩
    let b : List Event := [.startTag ⟨3, 0⟩ (.plain "b") [], .text ⟨3, 3⟩ "T", .endTag ⟨3, 4⟩ (.plain "b")]
    let es : List Event := [.startTag ⟨1, 0⟩ (.plain "a") [], .comment ⟨1, 3⟩ "C",
      .startTag ⟨2, 0⟩ (.plain "b") [⟨.plain "k", [.literal "V"]⟩]] ++ b ++
      [.endTag ⟨4, 0⟩ (.plain "b"), .endTag ⟨5, 0⟩ (.plain "a")]
    Path.parse "//b|*/@k|b/.//text()" = .ok p ∧ (∀ r ∈ p.routes, Proper r.steps) ∧ Event.Nested es ∧
      (∃ ns, Part.eventsOf ns = es) ∧ ∀ ns, Part.eventsOf ns = es →
        ∃ ts : List Target, ts.Pairwise Target.Before ∧ (∀ t, t ∈ ts ↔ p.Selects ns t) ∧
          ts.flatMap Target.events = (es.drop 2).take 5 ++ [.text ⟨2, 0⟩ "V"] ++ b ++ [.text ⟨3, 3⟩ "T"] := by
  intro p b es
  have accepted : Path.parse "//b|*/@k|b/.//text()" = .ok p := by decide
  have proper : ∀ r ∈ p.routes, Proper r.steps := by decide
  have nested : Event.Nested es := by decide
  have chosen : p.select es = (es.drop 2).take 5 ++ [.text ⟨2, 0⟩ "V"] ++ b ++ [.text ⟨3, 3⟩ "T"] := by
    cbv
  obtain ⟨some, all⟩ := select_in_order accepted proper nested
  refine ⟨accepted, proper, nested, some, fun ns forest => ?_⟩
  obtain ⟨ts, sorted, meant, selected⟩ := all ns forest
  exact ⟨ts, sorted, meant, selected.symm.trans chosen⟩

end Path

end Stencil
