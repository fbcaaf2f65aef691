import Mathlib.Data.List.Perm.Basic
import Stencil.Proofs.Template.Readings

/-!
# The order of attributes

The directives of an element are read in the order of its attributes and then put in the order of their
rank. The order of the attributes is lost on the way: whatever directives hosts have added, no two of an
element have one rank, so there is one way to sort them (`Compile.sortByRank_eq_of_perm`), and at most one of them, the capture,
comes with a filter (`Compile.flatMap_filters_eq_of_perm`). What remains is the order of the ordinary
attributes. Documents that agree in it compile to the same template (`Compile.template_rearranged`).
-/

namespace Stencil

namespace Compile

/-- The second event is the first one, with its directives put elsewhere among its attributes. -/
inductive Rearranged : Event → Event → Prop
  | refl (e : Event) : Rearranged e e
  | startTag (p : Position) (name : QName) {as as' : Attributes} (perm : as.Perm as')
      (ordinary : as.filter (!isDirective ·) = as'.filter (!isDirective ·)) :
      Rearranged (.startTag p name as) (.startTag p name as')

theorem Rearranged.symm {e e' : Event} (h : Rearranged e e') : Rearranged e' e := by
  cases h with
  | refl => exact .refl e
  | startTag p name perm ordinary => exact .startTag p name perm.symm ordinary.symm

/-! ## What is read of the attributes -/

variable {t : Target} {index : Nat} {p : Position} {as as' : Attributes} {rs rs' : List DirectiveReading}

/-- Directives of distinct ranks are sorted in one way only. -/
theorem sortByRank_eq_of_perm {ds ds' : List Directive} (distinct : ds.Pairwise (·.rank ≠ ·.rank)) (perm : ds.Perm ds') :
    sortByRank ds = sortByRank ds' := by
  have distinct' : ds'.Pairwise (·.rank ≠ ·.rank) := (perm.pairwise_iff fun apart => apart.symm).1 distinct
  have sorted : (sortByRank ds).Perm (sortByRank ds') := calc
    (sortByRank ds).Perm ds := sortByRank_perm ds
    ds.Perm ds' := perm
    ds'.Perm (sortByRank ds') := (sortByRank_perm ds').symm
  refine sorted.eq_of_pairwise (fun d e _ _ less more => ?_) (ascending_sortByRank distinct) (ascending_sortByRank distinct')
  omega

/-- A directive that comes with filters is a capture. -/
theorem filters_of_read {a : Attribute} {r : DirectiveReading} (h : readDirective t index p a = .ok r) :
    r.filters = [] ∨ r.directive.rank = DirectiveName.capture.rank := by
  obtain ⟨n, -, -, named⟩ := readNamed_of_read h
  cases readsTo_of_readNamed named with
  | capture => exact .inr rfl
  | _ => exact .inl rfl

/-- Where at most one reading comes with filters, the filters stay in order. -/
theorem flatMap_filters_eq_of_perm (single : rs.Pairwise fun r r' => r.filters = [] ∨ r'.filters = [])
    (perm : rs.Perm rs') : rs.flatMap DirectiveReading.filters = rs'.flatMap DirectiveReading.filters := by
  induction perm with
  | nil => rfl
  | cons r _ ih => rw [List.flatMap_cons, List.flatMap_cons, ih (List.pairwise_cons.1 single).2]
  | swap r r' rs =>
    rcases (List.pairwise_cons.1 single).1 r List.mem_cons_self with none | none
    all_goals simp [none]
  | trans first _ ih ih' => exact (ih single).trans (ih' ((first.pairwise_iff Or.symm).1 single))

/-- The directives of an element come with the same filters and in the same order, in whatever order they were read. -/
theorem readings_eq_of_perm (distinct : as.Distinct) (h : readingsOf t index p as = .ok rs) (perm : rs.Perm rs') :
    rs.flatMap DirectiveReading.filters = rs'.flatMap DirectiveReading.filters ∧
      sortByRank (rs.map (·.directive)) = sortByRank (rs'.map (·.directive)) := by
  obtain ⟨read, ranked⟩ := readings_ranked (distinct.filter _) (fun a ha => (List.mem_filter.1 ha).2) h
  constructor
  · refine flatMap_filters_eq_of_perm (ranked.imp_of_mem fun {r r'} hr hr' apart => ?_) perm
    obtain ⟨a, -, -, -, -, found⟩ := read r hr
    obtain ⟨a', -, -, -, -, found'⟩ := read r' hr'
    -- two readings with filters were captures, of one rank
    rcases filters_of_read found with none | capture
    · exact .inl none
    · rcases filters_of_read found' with none | capture'
      · exact .inr none
      · exact absurd (capture.trans capture'.symm) apart
  · exact sortByRank_eq_of_perm (List.pairwise_map.2 ranked) (perm.map _)

/-- What is read of attributes in another order is the same, in another order. -/
theorem readingsOf_perm (h : readingsOf t index p as = .ok rs) (perm : as.Perm as') :
    ∃ rs', readingsOf t index p as' = .ok rs' ∧ rs.Perm rs' := by
  obtain ⟨rs', read, perm⟩ := List.perm_comp_forall₂ (perm.filter isDirective).symm (mapM_eq_ok_iff.1 h)
  exact ⟨rs', mapM_eq_ok_iff.2 read, perm.symm⟩

/-! ## Compiling -/

variable {s s' : State}

theorem openElement_eq_of_perm (distinct : as.Distinct) (h : readingsOf t index p as = .ok rs) (perm : rs.Perm rs')
    (tag : Event) : s.openElement tag rs = s.openElement tag rs' := by
  obtain ⟨filters, directives⟩ := readings_eq_of_perm distinct h perm
  have empty : rs.isEmpty = rs'.isEmpty := by
    rw [Bool.eq_iff_iff, List.isEmpty_iff, List.isEmpty_iff]
    exact ⟨fun none => (none ▸ perm).nil_eq.symm, fun none => (none ▸ perm).eq_nil⟩
  simp only [State.openElement, filters, directives, empty]

/-- An event and the event rearranged are read to the same. -/
theorem step_rearranged {e e' : Event} (moved : Rearranged e e')
    (distinct : ∀ p name as, e = .startTag p name as → Attributes.Distinct as) (h : step t s (e, index) = .ok s') :
    step t s (e', index) = .ok s' := by
  cases moved with
  | refl => exact h
  | @startTag p name as as' perm ordinary =>
    obtain ⟨rs, read, rfl⟩ := step_startTag_ok.1 h
    obtain ⟨rs', read', perm'⟩ := readingsOf_perm read perm
    have kept : ordinaryAttributes as = ordinaryAttributes as' := by
      rw [ordinaryAttributes, ordinaryAttributes, ordinary]
    rw [kept, step_startTag_ok]
    exact ⟨rs', read', (openElement_eq_of_perm (distinct p name as rfl) read perm' _).symm⟩

theorem run_rearranged {es es' : List Event} (moved : List.Forall₂ Rearranged es es')
    (distinct : ∀ p name as, .startTag p name as ∈ es → Attributes.Distinct as) (h : run t s es index = .ok s') :
    run t s es' index = .ok s' := by
  induction moved generalizing s index with
  | nil => exact h
  | @cons e e' es es' first _ ih =>
    obtain ⟨mid, next, rest⟩ := run_cons_ok.1 h
    have own := step_rearranged first (fun p name as same => distinct p name as (same ▸ List.mem_cons_self)) next
    exact run_cons_ok.2 ⟨mid, own, ih (fun p name as tag => distinct p name as (List.mem_cons_of_mem _ tag)) rest⟩

/-- Distinct attributes stay distinct where they are rearranged. -/
theorem distinct_rearranged {es es' : List Event} (moved : List.Forall₂ Rearranged es es')
    (distinct : ∀ p name as, .startTag p name as ∈ es → Attributes.Distinct as) :
    ∀ p name as, .startTag p name as ∈ es' → Attributes.Distinct as := by
  induction moved with
  | nil => simp
  | @cons e e' es es' first _ ih =>
    intro p name as tag
    rcases List.mem_cons.1 tag with rfl | tag
    · cases first with
      | refl => exact distinct p name as List.mem_cons_self
      | startTag _ _ perm => exact (distinct p name _ List.mem_cons_self).perm perm
    · exact ih (fun p name as tag => distinct p name as (List.mem_cons_of_mem _ tag)) p name as tag

/-- **Where the directives of an element stand among its attributes does not matter.** Documents that differ in nothing
else compile to the same template: its events, the directives of each `sub` event in order, and its filters in order. -/
theorem template_rearranged (t : Target) {es es' : List Event} (moved : List.Forall₂ Rearranged es es')
    (distinct : ∀ p name as, .startTag p name as ∈ es → Attributes.Distinct as) (m : Template) :
    template t es = .ok m ↔ template t es' = .ok m := by
  have forward {fs fs' : List Event} (moved : List.Forall₂ Rearranged fs fs')
      (distinct : ∀ p name as, .startTag p name as ∈ fs → Attributes.Distinct as) (h : template t fs = .ok m) :
      template t fs' = .ok m := by
    obtain ⟨s, read, rfl⟩ := template_ok h
    rw [template_eq, run_rearranged moved distinct read]
    rfl
  exact ⟨forward moved distinct, forward (moved.flip.imp fun _ _ => Rearranged.symm) (distinct_rearranged moved distinct)⟩

/-- A registry with two directives, the second of which drops elements. -/
def unlessRegistry : Registry where
  added := [⟨"repeat", 0, .twice⟩, ⟨"unless", 1, .unless⟩]
  numbered := rfl
  distinct := by decide
  foreign := by decide

/-- A cell with some attributes. -/
def cellOf (as : Attributes) : List Event :=
  [.startTag ⟨1, 0⟩ (.plain "td") as, .text ⟨1, 90⟩ "$x", .endTag ⟨1, 92⟩ (.plain "td")]

/-- Four directives, moved between two ordinary attributes. -/
theorem template_rearranged_cell :
    let directive (base value : Text) : Attribute := ⟨⟨Template.directiveNamespace, "py", base⟩, [.literal value]⟩
    let ident : Attribute := ⟨.plain "id", [.literal "a"]⟩
    let style : Attribute := ⟨.plain "class", [.literal "$x"]⟩
    let before : Attributes :=
      [directive "unless" "y", ident, directive "for" "x in xs", directive "match" "td", style, directive "strip" ""]
    let after : Attributes :=
      [ident, directive "strip" "", directive "match" "td", style, directive "unless" "y", directive "for" "x in xs"]
    let target : Target := ⟨0, "t.xml", unlessRegistry⟩
    let compiled : Template :=
      ⟨0, "t.xml",
        [.sub ⟨1, 0⟩ [.capture ⟨0, 1⟩, .loop ["x"] ⟨"xs"⟩, .strip none, .extension ⟨"unless", 1, .unless⟩ (some ⟨"y"⟩)]
          [.startTag ⟨1, 0⟩ (.plain "td") [ident, ⟨.plain "class", [.expression ⟨"x"⟩]⟩],
            .expression ⟨1, 90⟩ ⟨"x"⟩, .endTag ⟨1, 92⟩ (.plain "td")]],
        [.evaluate], [.substitute ⟨"td", [⟨false, [⟨.child, .element "td", none⟩]⟩]⟩ ⟨0, 1⟩], [.tidy]⟩
    List.Forall₂ Rearranged (cellOf before) (cellOf after) ∧
      (∀ p name as, .startTag p name as ∈ cellOf before → Attributes.Distinct as) ∧
      template target (cellOf before) = .ok compiled ∧ template target (cellOf after) = .ok compiled := by
  intro directive ident style before after target compiled
  have moved : List.Forall₂ Rearranged (cellOf before) (cellOf after) :=
    .cons (.startTag _ _ (by decide) (by decide)) (.cons (.refl _) (.cons (.refl _) .nil))
  have distinct : ∀ p name as, .startTag p name as ∈ cellOf before → Attributes.Distinct as := by
    intro p name as tag
    simp only [cellOf, List.mem_cons, List.not_mem_nil, or_false, reduceCtorEq, Event.startTag.injEq] at tag
    obtain ⟨-, -, rfl⟩ := tag
    unfold Attributes.Distinct
    decide
  have read : template target (cellOf before) = .ok compiled := rfl
  exact ⟨moved, distinct, read, (template_rearranged target moved distinct compiled).1 read⟩

end Compile

end Stencil
