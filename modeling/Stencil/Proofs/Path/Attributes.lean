import Mathlib.Data.List.Flatten
import Stencil.Proofs.Path.Agreement
import Stencil.Proofs.Path.Extended

/-!
# Attributes after two slashes

Two slashes before a step are to lead to all descendants. The selection takes no notice of them where the step asks
for attributes, or for the element itself (`Path.select_settled`). So what `P//@n` selects are attributes of the
elements that `P` selects; those of elements inside of these are left out (`Path.select_attributes_below`). The
selection is what is meant if and only if none of them has such an attribute.
-/

namespace Stencil

/-- The step as the selection takes it: two slashes count before steps to other elements and to texts only. -/
def Step.settled (s : Step) : Step := if s.test.isProper then s else { s with axis := .child }

namespace Path

def settled (p : Path) : Path := { p with routes := p.routes.map fun r => { r with steps := r.steps.map Step.settled } }

open TreeNode

variable {events : List Event} {s : Step} {steps : List Step} {p q : Path} {ns : List Part} {n : Text} {u v : TreeNode}
  {t : Target}

/-! ## Axes that do not count -/

theorem test_settled (s : Step) : s.settled.test = s.test := by
  unfold Step.settled
  split <;> rfl

theorem isProper_settled (s : Step) : s.settled.axis = .descendant → s.settled.test.isProper = true := by
  rw [test_settled]
  unfold Step.settled
  split
  · rename_i proper
    exact fun _ => proper
  · exact nofun

theorem stepFrom_settled (asksNone : s.test.isAttribute = false) (i : Nat) :
    stepFrom events s.settled i = stepFrom events s i := by
  unfold Step.settled
  split
  · rfl
  · rename_i improper
    obtain ⟨axis, test, predicate?⟩ := s
    -- among the tests that ask for no attribute, only that of the element itself does not count
    cases test with
    | self => rfl
    | attributeNamed | anyAttribute => cases asksNone
    | element | anyElement | text => exact absurd rfl improper

theorem follow_settled (steps : List Step) (nodes : List Nat) :
    follow events (steps.map Step.settled) nodes = follow events steps nodes := by
  induction steps generalizing nodes with
  | nil => rfl
  | cons s steps ih =>
    rw [List.map_cons, follow, follow, test_settled]
    split
    · rfl
    · rename_i asks
      have found : stepFromAll events s.settled nodes = stepFromAll events s nodes := by
        unfold stepFromAll
        have each : stepFrom events s.settled = stepFrom events s :=
          funext fun i => stepFrom_settled (by simpa using asks) i
        rw [each]
      rw [found, ih]

/-- **The selection follows a path as if it were settled.** -/
theorem select_settled (p : Path) (events : List Event) : p.settled.select events = p.select events := by
  have keys : p.settled.keys events = p.keys events := by
    unfold Path.keys settled
    rw [List.flatMap_map]
    apply List.flatMap_congr
    intro r _
    exact follow_settled r.steps _
  show (List.range events.length).flatMap (selectedAt events (p.settled.keys events)) = _
  rw [keys]
  rfl

theorem proper_settled (p : Path) : ∀ r ∈ p.settled.routes, Proper r.steps := by
  intro r hr
  obtain ⟨r, -, rfl⟩ := List.mem_map.1 hr
  intro s hs
  obtain ⟨s, -, rfl⟩ := List.mem_map.1 hs
  exact isProper_settled s

theorem attributesLast_settled (last : ∀ r ∈ p.routes, AttributesLast r.steps) :
    ∀ r ∈ p.settled.routes, AttributesLast r.steps := by
  intro r hr
  obtain ⟨r', hr', rfl⟩ := List.mem_map.1 hr
  intro s hs
  rw [← List.map_dropLast] at hs
  obtain ⟨s', hs', rfl⟩ := List.mem_map.1 hs
  rw [test_settled]
  exact last r' hr' s' hs'

/-! ## Lists in order -/

instance : Std.Asymm Target.Before where
  asymm t u before after := by
    unfold Target.Before at before after
    omega

/-- The targets of a path are determined by their order. -/
theorem select_of_mem_iff {us : List Target} (last : ∀ r ∈ p.routes, AttributesLast r.steps)
    (sorted : us.Pairwise Target.Before) (meant : ∀ t, t ∈ us ↔ p.settled.Selects ns t) :
    p.select (Part.eventsOf ns) = us.flatMap Target.events := by
  obtain ⟨ts, sorted', meant', selected⟩ := select_eq_flatMap (show Part.eventsOf ns = _ from rfl) (proper_settled p)
    (attributesLast_settled last)
  have same : ts = us := by
    apply sorted'.eq_of_mem_iff sorted
    intro t
    rw [meant', meant]
  rw [← select_settled, selected, same]

open Classical in
/-- The nodes of a forest that fulfil a condition, in the order of the document. -/
noncomputable def nodesWhere (ns : List Part) (holds : TreeNode → Prop) : List TreeNode :=
  (allUnder [] 0 ns).filter holds

theorem mem_nodesWhere {holds : TreeNode → Prop} : v ∈ nodesWhere ns holds ↔ v ∈ allUnder [] 0 ns ∧ holds v := by
  simp [nodesWhere]

/-- The values of the attributes of a name as texts, each at the place of its tag. -/
def attributeTexts (n : Text) (vs : List TreeNode) : List Event :=
  vs.flatMap fun v => (v.part.attributes.filter (·.name.qualified == n)).map fun a => .text v.part.position a.text

/-- The target is the value of an attribute of the name. -/
def Target.isValue (n : Text) : Target → Bool
  | whole _ => false
  | value _ _ a => a.name.qualified == n

theorem mem_values : t ∈ (Target.ofNode v).filter (Target.isValue n) ↔
    ∃ k a, v.part.attributes[k]? = some a ∧ a.name.qualified = n ∧ t = .value v k a := by
  rw [List.mem_filter, Target.ofNode, List.mem_cons, List.mem_map]
  constructor
  · rintro ⟨rfl | ⟨⟨a, k⟩, there, rfl⟩, named⟩
    · cases named
    · exact ⟨k, a, List.mk_mem_zipIdx_iff_getElem?.1 there, beq_iff_eq.1 named, rfl⟩
  · rintro ⟨k, a, there, named, rfl⟩
    constructor
    · right
      exact ⟨(a, k), List.mk_mem_zipIdx_iff_getElem?.2 there, rfl⟩
    · exact beq_iff_eq.2 named

theorem attributeTexts_eq (n : Text) (vs : List TreeNode) :
    attributeTexts n vs = (vs.flatMap fun v => (Target.ofNode v).filter (Target.isValue n)).flatMap Target.events := by
  rw [attributeTexts, List.flatMap_assoc]
  apply List.flatMap_congr
  intro v _
  have named : v.part.attributes.filter (·.name.qualified == n) =
      (v.part.attributes.zipIdx.filter fun x => x.1.name.qualified == n).map Prod.fst := by
    conv_lhs => rw [← List.zipIdx_map_fst 0 v.part.attributes]
    rw [List.filter_map]
    rfl
  have values : (Target.ofNode v).filter (Target.isValue n) =
      (v.part.attributes.zipIdx.filter fun x => x.1.name.qualified == n).map fun x => .value v x.2 x.1 := by
    rw [Target.ofNode, List.filter_cons_of_neg (by simp [Target.isValue]), List.filter_map]
    rfl
  rw [named, values, List.map_map, List.flatMap_map, ← List.flatMap_pure_eq_map]
  rfl

theorem sorted_values (n : Text) (holds : TreeNode → Prop) :
    ((nodesWhere ns holds).flatMap fun v => (Target.ofNode v).filter (Target.isValue n)).Pairwise Target.Before := by
  apply List.pairwise_flatMap.2
  constructor
  · intro v _
    exact (sorted_ofNode v).filter _
  · apply ((sorted_allUnder [] 0 ns).filter _).imp
    intro v w less t ht u hu
    left
    rw [index_of_mem_ofNode (List.mem_of_mem_filter ht), index_of_mem_ofNode (List.mem_of_mem_filter hu)]
    exact less

/-- The last step may ask for an attribute. -/
theorem reaches_value_iff (asksNone : ∀ s ∈ steps, s.test.isAttribute = false) :
    Reaches (steps ++ [⟨.child, .attributeNamed n, none⟩]) u t ↔
      ∃ v, Reaches steps u (.whole v) ∧ t ∈ (Target.ofNode v).filter (Target.isValue n) := by
  induction steps generalizing u with
  | nil =>
    constructor
    · intro reaches
      cases reaches with
      | value _ there asked =>
        rcases asked with every | named
        · cases every
        · cases named
          exact ⟨u, .here u, mem_values.2 ⟨_, _, there, rfl, rfl⟩⟩
      | step leads => exact absurd leads (not_leads_of_isAttribute rfl)
    · rintro ⟨v, here, value⟩
      cases here
      obtain ⟨k, a, there, rfl, rfl⟩ := mem_values.1 value
      exact .value rfl there (.inr rfl)
  | cons s steps ih =>
    obtain ⟨none, others⟩ := List.forall_mem_cons.1 asksNone
    rw [List.cons_append, reaches_cons (by simp)]
    constructor
    · rintro ⟨x, leads, rest⟩
      obtain ⟨v, between, value⟩ := (ih others).1 rest
      exact ⟨v, .step leads between, value⟩
    · rintro ⟨v, between, value⟩
      cases between with
      | step leads between => exact ⟨_, leads, (ih others).2 ⟨v, between, value⟩⟩

/-! ## What is selected -/

/-- The node is where some steps lead to from the outermost elements. -/
def LedTo (steps : List Step) (ns : List Part) (v : TreeNode) : Prop :=
  ∃ u ∈ place [] 0 ns, u.part.isElement = true ∧ Reaches (steps.map Step.settled) u (.whole v)

theorem LedTo.mem_allUnder (h : LedTo steps ns v) : v ∈ allUnder [] 0 ns := by
  obtain ⟨u, hu, -, reaches⟩ := h
  obtain ⟨w, hw, inside⟩ := List.mem_flatMap.1 (reaches_mem (place_subset_allUnder [] 0 ns hu) reaches)
  rcases List.mem_cons.1 inside with same | value
  · cases same
    exact hw
  · obtain ⟨x, -, same⟩ := List.mem_map.1 value
    cases same

theorem asksNone_settled (asksNone : ∀ s ∈ steps, s.test.isAttribute = false) :
    ∀ s ∈ steps.map Step.settled, s.test.isAttribute = false := by
  intro s hs
  obtain ⟨s', hs', rfl⟩ := List.mem_map.1 hs
  rw [test_settled]
  exact asksNone s' hs'

/-- **A last step to attributes selects those of the nodes before it, on either axis.** -/
theorem select_attributes {absolute : Bool} {axis : Axis}
    (routes : q.routes = [⟨absolute, steps ++ [⟨axis, .attributeNamed n, none⟩]⟩])
    (asksNone : ∀ s ∈ steps, s.test.isAttribute = false) :
    q.select (Part.eventsOf ns) = attributeTexts n (nodesWhere ns (LedTo steps ns)) := by
  have last : ∀ r ∈ q.routes, AttributesLast r.steps := by
    rw [routes, List.forall_mem_singleton]
    intro s hs
    rw [List.dropLast_concat] at hs
    exact asksNone s hs
  have final : Step.settled ⟨axis, .attributeNamed n, none⟩ = ⟨.child, .attributeNamed n, none⟩ := rfl
  rw [attributeTexts_eq]
  apply select_of_mem_iff last (sorted_values n _)
  intro t
  have meant : q.settled.Selects ns t ↔ ∃ u ∈ place [] 0 ns, u.part.isElement = true ∧
      Reaches (steps.map Step.settled ++ [⟨.child, .attributeNamed n, none⟩]) u t := by
    simp [Selects, settled, routes, final]
  rw [meant, List.mem_flatMap]
  constructor
  · rintro ⟨v, hv, value⟩
    obtain ⟨-, u, hu, element, reaches⟩ := mem_nodesWhere.1 hv
    exact ⟨u, hu, element, (reaches_value_iff (asksNone_settled asksNone)).2 ⟨v, reaches, value⟩⟩
  · rintro ⟨u, hu, element, reaches⟩
    obtain ⟨v, reaches, value⟩ := (reaches_value_iff (asksNone_settled asksNone)).1 reaches
    have led : LedTo steps ns v := ⟨u, hu, element, reaches⟩
    exact ⟨v, mem_nodesWhere.2 ⟨led.mem_allUnder, led⟩, value⟩

theorem whole_of_reaches (asksNone : ∀ s ∈ steps, s.test.isAttribute = false) (h : Reaches steps u t) : ∃ v, t = .whole v := by
  induction h with
  | here u => exact ⟨u, rfl⟩
  | @value s _ _ _ _ _ asked =>
    have none := asksNone s List.mem_cons_self
    rcases asked with test | test <;> (rw [test] at none; cases none)
  | step _ _ ih => exact ih (List.forall_mem_cons.1 asksNone).2

/-- A path without steps to attributes selects the nodes that its steps lead to. -/
theorem select_wholes {r : Route} (single : p.routes = [r]) (asksNone : ∀ s ∈ r.steps, s.test.isAttribute = false) :
    p.select (Part.eventsOf ns) = (nodesWhere ns (LedTo r.steps ns)).flatMap fun v => v.part.events := by
  have last : ∀ r ∈ p.routes, AttributesLast r.steps := by
    rw [single, List.forall_mem_singleton]
    exact fun s hs => asksNone s (List.mem_of_mem_dropLast hs)
  have events : ((nodesWhere ns (LedTo r.steps ns)).map Target.whole).flatMap Target.events =
      (nodesWhere ns (LedTo r.steps ns)).flatMap fun v => v.part.events := by
    rw [List.flatMap_map]
    rfl
  rw [← events]
  apply select_of_mem_iff last
  · apply List.pairwise_map.2
    exact ((sorted_allUnder [] 0 ns).filter _).imp fun less => .inl less
  · intro t
    have meant : p.settled.Selects ns t ↔ ∃ u ∈ place [] 0 ns, u.part.isElement = true ∧
        Reaches (r.steps.map Step.settled) u t := by
      simp [Selects, settled, single]
    rw [meant, List.mem_map]
    constructor
    · rintro ⟨v, hv, rfl⟩
      exact (mem_nodesWhere.1 hv).2
    · rintro ⟨u, hu, element, reaches⟩
      obtain ⟨v, rfl⟩ := whole_of_reaches (asksNone_settled asksNone) reaches
      have led : LedTo r.steps ns v := ⟨u, hu, element, reaches⟩
      exact ⟨v, mem_nodesWhere.2 ⟨led.mem_allUnder, led⟩, rfl⟩

/-! ## What is left out -/

theorem eq_nil_of_flatMap_filter_eq {α β : Type} {f : α → List β} {keep : α → Bool} {l : List α}
    (same : (l.filter keep).flatMap f = l.flatMap f) : ∀ a ∈ l, keep a = false → f a = [] := by
  induction l with
  | nil => exact nofun
  | cons a l ih =>
    rw [List.flatMap_cons] at same
    by_cases kept : keep a = true
    · rw [List.filter_cons_of_pos kept, List.flatMap_cons] at same
      refine List.forall_mem_cons.2 ⟨?_, ih (List.append_cancel_left same)⟩
      exact fun left => absurd (kept.symm.trans left) nofun
    · rw [List.filter_cons_of_neg kept] at same
      -- what is filtered is no longer than the rest, so there was nothing at the first place
      have few := ((List.filter_sublist (p := keep) (l := l)).flatMap f).length_le
      have lengths := congrArg List.length same
      rw [List.length_append] at lengths
      have none : f a = [] := List.length_eq_zero_iff.1 (by omega)
      rw [none, List.nil_append] at same
      exact List.forall_mem_cons.2 ⟨fun _ => none, ih same⟩

/-- Texts of fewer nodes are the same if and only if the other nodes have no such attribute. -/
theorem attributeTexts_eq_iff {own within : TreeNode → Prop} (inside : ∀ v, own v → within v) :
    attributeTexts n (nodesWhere ns own) = attributeTexts n (nodesWhere ns within) ↔
      ∀ v ∈ nodesWhere ns within, (∃ a ∈ v.part.attributes, a.name.qualified = n) → own v := by
  classical
  have filtered : nodesWhere ns own = (nodesWhere ns within).filter fun v => decide (own v) := by
    rw [nodesWhere, nodesWhere, List.filter_filter]
    apply List.filter_congr
    intro v _
    simpa using fun h => inside v h
  have empty : ∀ v : TreeNode, (v.part.attributes.filter (·.name.qualified == n)).map
      (fun a => Event.text v.part.position a.text) = [] ↔ ¬ ∃ a ∈ v.part.attributes, a.name.qualified = n := by
    intro v
    simp
  rw [filtered]
  constructor
  · intro same v hv named
    by_contra other
    exact (empty v).1 (eq_nil_of_flatMap_filter_eq same v hv (decide_eq_false other)) named
  · intro all
    apply flatMap_filter_eq
    intro v hv other
    exact (empty v).2 fun named => of_decide_eq_false other (all v hv named)

/-- From a forest, a path selects the attributes of a name at the nodes that are its `own`; and these are the attributes at
all the nodes `within` if and only if no other one of those has one. -/
structure SelectsOf (q : Path) (n : Text) (ns : List Part) (own within : TreeNode → Prop) : Prop where
  selected : q.select (Part.eventsOf ns) = attributeTexts n (nodesWhere ns own)
  complete_iff : q.select (Part.eventsOf ns) = attributeTexts n (nodesWhere ns within) ↔
    ∀ v ∈ nodesWhere ns within, (∃ a ∈ v.part.attributes, a.name.qualified = n) → own v

theorem selectsOf {absolute : Bool} {axis : Axis} (routes : q.routes = [⟨absolute, steps ++ [⟨axis, .attributeNamed n, none⟩]⟩])
    (asksNone : ∀ s ∈ steps, s.test.isAttribute = false) {own within : TreeNode → Prop}
    (led : ∀ v, own v ↔ LedTo steps ns v) (inside : ∀ v, own v → within v) : SelectsOf q n ns own within := by
  have selected : q.select (Part.eventsOf ns) = attributeTexts n (nodesWhere ns (LedTo steps ns)) :=
    select_attributes routes asksNone
  rw [show LedTo steps ns = own from funext fun v => propext (led v).symm] at selected
  constructor
  · exact selected
  · rw [selected]
    exact attributeTexts_eq_iff inside

/-- A name is read as the name of an attribute. -/
theorem stepsAt_attribute (name : IsName n) : StepsAt .descendant (('@' : Byte) :: n) [⟨.descendant, .attributeNamed n, none⟩] := by
  let s : Step := ⟨.descendant, .attributeNamed n, none⟩
  have writable : s.Writable := ⟨.attributeNamed name, nofun, nofun⟩
  have suits : s.Suits plainMark := nofun
  have written : StepsAt s.axis (s.print plainMark ++ Route.printMore plainMark []) [s] :=
    stepsAt_print (List.forall_mem_singleton.2 writable) (List.forall_mem_singleton.2 suits) nofun
  simpa [s, Step.print, NodeTest.print, Step.printPredicate, Route.printMore] using written

/-- A name after `@` has nothing in it that could separate routes, and no blank at its end. -/
theorem IsName.attribute (name : IsName n) : (∀ c ∈ ('@' : Byte) :: n, isPlain c = true) ∧
    ∀ c ∈ (('@' : Byte) :: n).getLast?, Byte.isWhite c = false := by
  constructor
  · exact List.forall_mem_cons.2 ⟨rfl, name.plain⟩
  · apply last_append (t := [('@' : Byte)]) name.some
    exact fun c hc => (of_isNamePart (name.parts c (List.mem_of_getLast? hc))).1

theorem parse_attribute (name : IsName n) :
    Path.parse ("//@" ++ n) = .ok ⟨"//@" ++ n, [⟨false, [⟨.descendant, .attributeNamed n, none⟩]⟩]⟩ := by
  have written := stepsAt_attribute name
  obtain ⟨plain, last⟩ := name.attribute
  have slashes : ∀ c ∈ (("//" : Text) ++ (('@' : Byte) :: n)), isPlain c = true :=
    List.forall_mem_cons.2 ⟨rfl, List.forall_mem_cons.2 ⟨rfl, plain⟩⟩
  have trimmed : Text.trimWhite (("//" : Text) ++ (('@' : Byte) :: n)) = ("//" : Text) ++ (('@' : Byte) :: n) := by
    apply Text.trim_of_ends
    · rintro c ⟨⟩
      decide
    · exact last_append (List.cons_ne_nil _ _) last
  apply parse_of_splitRoutes (splitRoutes_plain slashes none 0)
  · rw [trimmed]
    exact List.cons_ne_nil _ _
  · rw [trimmed]
    have relative : false = true → Axis.descendant = .child := fun anchored => absurd anchored Bool.false_ne_true
    exact readRoute_of_stepsAt (by decide) relative written written.length_le

/-- **What `//@n` and `P//@n` select.** The first one selects the attributes named `n` of the outermost elements, the second
one those of the nodes that `P` selects. These are the attributes of all elements, or of all that is in what `P` selects, if
and only if the elements left out have none of that name. -/
theorem select_attributes_below {P : Text} {p : Path} {r : Route} (parsed : Path.parse P = .ok p) (single : p.routes = [r])
    (asksNone : ∀ s ∈ r.steps, s.test.isAttribute = false) (ends : ∀ c ∈ P.getLast?, Byte.isWhite c = false)
    (name : IsName n) {es : List Event} (nested : Event.Nested es) :
    ∃ everywhere below, Path.parse ("//@" ++ n) = .ok everywhere ∧ Path.parse (P ++ ("//@" ++ n)) = .ok below ∧
      (∃ ns, Part.eventsOf ns = es) ∧ ∀ ns, Part.eventsOf ns = es →
        SelectsOf everywhere n ns (fun v => v ∈ place [] 0 ns ∧ v.part.isElement = true) (fun v => v.part.isElement = true) ∧
        p.select es = (nodesWhere ns (LedTo r.steps ns)).flatMap (fun v => v.part.events) ∧
        SelectsOf below n ns (LedTo r.steps ns) fun w => ∃ v, LedTo r.steps ns v ∧ (w = v ∨ w ∈ v.descendants) := by
  obtain ⟨plain, last⟩ := name.attribute
  refine ⟨_, _, parse_attribute name, parse_extended parsed single asksNone ends (stepsAt_attribute name) last plain,
    Part.nested_iff_parts.1 nested, ?_⟩
  rintro ns rfl
  have own : ∀ v, v ∈ place [] 0 ns ∧ v.part.isElement = true ↔ LedTo [] ns v := by
    intro v
    constructor
    · rintro ⟨outermost, element⟩
      exact ⟨v, outermost, element, .here v⟩
    · rintro ⟨u, outermost, element, reaches⟩
      cases reaches
      exact ⟨outermost, element⟩
  have alone : [Route.mk false [⟨.descendant, .attributeNamed n, none⟩]] =
      [⟨false, ([] : List Step) ++ [⟨.descendant, .attributeNamed n, none⟩]⟩] := rfl
  refine ⟨selectsOf alone (List.forall_mem_nil _) own fun _ outermost => outermost.2, select_wholes single asksNone, ?_⟩
  exact selectsOf rfl asksNone (fun _ => Iff.rfl) fun v led => ⟨v, led, .inl rfl⟩

/-- Two steps, one of them with a predicate, to an element in another one. -/
theorem select_attributes_below_nested :
    let P : Text := " *//b[@k]"
    let r : Route := ⟨false, [⟨.child, .anyElement, none⟩, ⟨.descendant, .element "b", some ⟨"k", none⟩⟩]⟩
    let b : Part := .element ⟨2, 0⟩ (.plain "b") [⟨.plain "k", [.literal "2"]⟩] [] ⟨3, 0⟩ (.plain "b")
    let ns : List Part := [.element ⟨1, 0⟩ (.plain "a") [⟨.plain "k", [.literal "1"]⟩] [b] ⟨4, 0⟩ (.plain "a")]
    Path.parse P = .ok ⟨P, [r]⟩ ∧ (∀ s ∈ r.steps, s.test.isAttribute = false) ∧
      (∀ c ∈ P.getLast?, Byte.isWhite c = false) ∧ IsName "k" ∧ Event.Nested (Part.eventsOf ns) ∧
      ∃ everywhere below, Path.parse ("//@" ++ "k") = .ok everywhere ∧ Path.parse (P ++ ("//@" ++ "k")) = .ok below ∧
        SelectsOf everywhere "k" ns (fun v => v ∈ place [] 0 ns ∧ v.part.isElement = true) (fun v => v.part.isElement = true) ∧
        SelectsOf below "k" ns (LedTo r.steps ns) fun w => ∃ v, LedTo r.steps ns v ∧ (w = v ∨ w ∈ v.descendants) := by
  intro P r b ns
  have parsed : Path.parse P = .ok ⟨P, [r]⟩ := by decide
  have asksNone : ∀ s ∈ r.steps, s.test.isAttribute = false := by decide
  have ends : ∀ c ∈ P.getLast?, Byte.isWhite c = false := by
    rintro _ ⟨⟩
    rfl
  have name : IsName "k" := ⟨by decide, List.all_eq_true.1 rfl⟩
  have nested : Event.Nested (Part.eventsOf ns) := Part.nest_eventsOf ns 0
  obtain ⟨everywhere, below, first, second, -, all⟩ := select_attributes_below parsed rfl asksNone ends name nested
  obtain ⟨outermost, -, within⟩ := all ns rfl
  exact ⟨parsed, asksNone, ends, name, nested, everywhere, below, first, second, outermost, within⟩

/-- The attribute of an element in another one is not selected, by `//@k` and by `.//@k`. -/
theorem select_attributes_inside :
    let b : Part := .element ⟨2, 0⟩ (.plain "b") [⟨.plain "k", [.literal "2"]⟩] [] ⟨3, 0⟩ (.plain "b")
    let ns : List Part := [.element ⟨1, 0⟩ (.plain "a") [⟨.plain "k", [.literal "1"]⟩] [b] ⟨4, 0⟩ (.plain "a")]
    Event.Nested (Part.eventsOf ns) ∧ (∀ v ∈ allUnder [] 0 ns, v.part.isElement = true) ∧
      attributeTexts "k" (allUnder [] 0 ns) = [.text ⟨1, 0⟩ "1", .text ⟨2, 0⟩ "2"] ∧
      ∀ source ∈ [("//@k" : Text), ".//@k"], ∃ p, Path.parse source = .ok p ∧
        p.select (Part.eventsOf ns) = [.text ⟨1, 0⟩ "1"] ∧
        p.select (Part.eventsOf ns) ≠ attributeTexts "k" (allUnder [] 0 ns) := by
  intro b ns
  have texts : attributeTexts "k" (allUnder [] 0 ns) = [.text ⟨1, 0⟩ "1", .text ⟨2, 0⟩ "2"] := by cbv
  have everywhere : ∃ p, Path.parse "//@k" = .ok p ∧ p.select (Part.eventsOf ns) = [.text ⟨1, 0⟩ "1"] := by
    refine ⟨⟨"//@k", [⟨false, [⟨.descendant, .attributeNamed "k", none⟩]⟩]⟩, by decide, ?_⟩
    cbv
  have below : ∃ p, Path.parse ".//@k" = .ok p ∧ p.select (Part.eventsOf ns) = [.text ⟨1, 0⟩ "1"] := by
    refine ⟨⟨".//@k", [⟨false, [⟨.child, .self, none⟩, ⟨.descendant, .attributeNamed "k", none⟩]⟩]⟩, by decide, ?_⟩
    cbv
  refine ⟨Part.nest_eventsOf ns 0, by decide, texts, ?_⟩
  intro source hs
  have selected : ∃ p, Path.parse source = .ok p ∧ p.select (Part.eventsOf ns) = [.text ⟨1, 0⟩ "1"] := by
    rcases List.mem_pair.1 hs with rfl | rfl
    · exact everywhere
    · exact below
  obtain ⟨p, parsed, one⟩ := selected
  refine ⟨p, parsed, one, ?_⟩
  rw [one, texts]
  simp

end Path

end Stencil
