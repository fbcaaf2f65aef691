import Stencil.Proofs.Template.Interpolated
import Stencil.Proofs.Template.Recursion
import Stencil.Proofs.Xml.Namespaces

/-!
# Whole elements with their declarations

Declarations of namespaces come before the start tag they belong to. Events that are whole elements, each with
its declarations, are evaluated to such events if directives only loop over and test elements that declare
nothing (`givesBlock_meaningOf`).
-/

open Stencil.Stream Stencil.Advance

namespace Stencil

/-! ## Documents with namespaces -/

/-- The prefix of the name is bound to its namespace. The innermost binding comes first in the scope. -/
def QName.IsBound (scope : List (Text × Text)) (n : QName) : Prop :=
  n.IsColonless ∧ (n.pre = [] ∨ n.pre = "xml" ∨ scope.find? (·.1 == n.pre) = some (n.pre, n.uri))

instance (n : QName) : Decidable n.IsColonless := inferInstanceAs (Decidable (_ ∧ _))

instance (scope : List (Text × Text)) (n : QName) : Decidable (n.IsBound scope) := inferInstanceAs (Decidable (_ ∧ _))

/-- The events that declare namespaces, each with its position. -/
def declarations (ds : List (Position × Text × Text)) : List Event := ds.map fun d => .startNamespace d.1 d.2.1 d.2.2

/-- A document in which declarations stand right before start tags and each prefix is bound by its element or an
enclosing one. -/
inductive Namespaced : List (Text × Text) → List Event → Prop
  | nil (scope : List (Text × Text)) : Namespaced scope []
  | other {scope : List (Text × Text)} {e : Event} {rest : List Event} (noStart : e.isStart = false)
      (noEnd : e.isEnd = false) (noNamespace : ∀ p pre uri, e ≠ .startNamespace p pre uri) (after : Namespaced scope rest) :
      Namespaced scope (e :: rest)
  | element {scope : List (Text × Text)} {children rest : List Event} (ds : List (Position × Text × Text)) (p : Position)
      (name : QName) (as : Attributes) (q : Position) (endName : QName)
      (bound : ∀ n ∈ name :: as.map (·.name), n.IsBound (ds.map (·.2) ++ scope))
      (inside : Namespaced (ds.map (·.2) ++ scope) children) (after : Namespaced scope rest) :
      Namespaced scope (declarations ds ++ .startTag p name as :: (children ++ .endTag q endName :: rest))

/-- Whether a declaration is for the elements of the document, and not for its directives. -/
def isForeign (d : Text × Text) : Bool := d.2 != Template.directiveNamespace

/-- The tag of an element of the document, with the declarations of that element but for those of the directive
namespace. Directives and attributes without a value have been left out. -/
def StemsFrom (document : List Event) (x : List (Text × Text) × Event) : Prop :=
  ∃ d p name as source, (d, .startTag p name source) ∈ elementsOf [] document ∧
    x = (d.filter isForeign, .startTag p name as) ∧ (as.map (·.name)).Sublist (source.map (·.name))

/-! ## What is rendered of an element -/

/-- Events that are whole elements and what stands between them: their prefixes are declared if those in scope
are, and their tags stem from the document. -/
structure Block (document : List Event) (scope : List Text) (es : List Event) : Prop where
  inScope : ∀ scopes rest, (∀ p ∈ scope, p ∈ scopes.flatten) → PrefixesInScope [] scopes rest →
    PrefixesInScope [] scopes (es ++ rest)
  stems : ∀ rest, ∀ x ∈ elementsOf [] (es ++ rest), StemsFrom document x ∨ x ∈ elementsOf [] rest

variable {document : List Event} {scope : List Text} {es fs : List Event}

theorem Block.nil : Block document scope [] := ⟨fun _ _ _ rest => rest, fun _ _ member => .inr member⟩

theorem Block.append (h : Block document scope es) (h' : Block document scope fs) : Block document scope (es ++ fs) where
  inScope scopes rest within after := by
    rw [List.append_assoc]
    exact h.inScope scopes _ within (h'.inScope scopes rest within after)
  stems rest x member := by
    rw [List.append_assoc] at member
    rcases h.stems _ x member with stems | member
    · exact .inl stems
    · exact h'.stems rest x member

theorem Block.single {e : Event} (noStart : e.isStart = false) (noEnd : e.isEnd = false)
    (noNamespace : ∀ p pre uri, e ≠ .startNamespace p pre uri) : Block document scope [e] := by
  cases e with
  | startTag => cases noStart
  | endTag => cases noEnd
  | startNamespace p pre uri => exact absurd rfl (noNamespace p pre uri)
  | _ => exact ⟨fun _ _ _ rest => rest, fun _ _ member => .inr member⟩

theorem prefixesInScope_declarations (ds : List (Position × Text × Text)) (declared : List (Text × Text))
    {scopes : List (List Text)} {rest : List Event} :
    PrefixesInScope declared scopes (declarations ds ++ rest) ↔ PrefixesInScope (declared ++ ds.map (·.2)) scopes rest := by
  induction ds generalizing declared with
  | nil => rw [declarations, List.map_nil, List.nil_append, List.map_nil, List.append_nil]
  | cons d ds ih =>
    refine (ih (declared ++ [d.2])).trans ?_
    rw [List.map_cons, List.append_assoc]
    rfl

theorem elementsOf_declarations (ds : List (Position × Text × Text)) (declared : List (Text × Text)) (rest : List Event) :
    elementsOf declared (declarations ds ++ rest) = elementsOf (declared ++ ds.map (·.2)) rest := by
  induction ds generalizing declared with
  | nil => rw [declarations, List.map_nil, List.nil_append, List.map_nil, List.append_nil]
  | cons d ds ih =>
    refine (ih (declared ++ [d.2])).trans ?_
    rw [List.map_cons, List.append_assoc]
    rfl

/-- An element is a block if its tag stems from the document and its content is a block. -/
theorem Block.element (ds : List (Position × Text × Text)) {p : Position} {name : QName} {as : Attributes} (q : Position)
    (endName : QName)
    (names : ∀ n ∈ name :: as.map (·.name), n.IsColonless ∧ n.IsInScope (ds.map (·.2.1) ++ scope))
    (stems : StemsFrom document (ds.map (·.2), .startTag p name as))
    (inside : Block document (ds.map (·.2.1) ++ scope) es) :
    Block document scope (declarations ds ++ .startTag p name as :: (es ++ [.endTag q endName])) where
  inScope scopes rest within after := by
    have prefixes : (ds.map (·.2)).map (·.1) = ds.map (·.2.1) := List.map_map
    rw [List.append_assoc, prefixesInScope_declarations, List.nil_append]
    refine ⟨fun n hn => ⟨(names n hn).1, ?_⟩, ?_⟩
    · rw [prefixes]
      refine (names n hn).2.imp_right (Or.imp_right fun member => ?_)
      exact (List.mem_append.1 member).elim (List.mem_append_left _) fun outer => List.mem_append_right _ (within _ outer)
    · rw [prefixes]
      change PrefixesInScope [] _ (es ++ [.endTag q endName] ++ rest)
      rw [List.append_assoc]
      refine inside.inScope _ _ (fun p member => ?_) after
      rw [List.flatten_cons]
      exact (List.mem_append.1 member).elim (List.mem_append_left _) fun outer => List.mem_append_right _ (within _ outer)
  stems rest x member := by
    rw [List.append_assoc, elementsOf_declarations, List.nil_append] at member
    rcases List.mem_cons.1 member with rfl | member
    · exact .inl stems
    · change x ∈ elementsOf [] (es ++ [.endTag q endName] ++ rest) at member
      rw [List.append_assoc] at member
      exact (inside.stems _ x member).imp_right id

/-! ## Templates -/

/-- The directives that give whole elements. -/
def Directive.isRepeating : Directive → Bool
  | loop .. | condition _ => true
  | _ => false

/-- Events of a template that are whole elements, with their declarations unless they carry directives, and what
stands between them. -/
inductive Woven (document : List Event) : List Text → List Event → Prop
  | nil (scope : List Text) : Woven document scope []
  | other {scope : List Text} {e : Event} {rest : List Event} (leaf : e.isLeaf = true) (noStart : e.isStart = false)
      (noEnd : e.isEnd = false) (noNamespace : ∀ p pre uri, e ≠ .startNamespace p pre uri)
      (after : Woven document scope rest) : Woven document scope (e :: rest)
  | element {scope : List Text} {children rest : List Event} (ds : List (Position × Text × Text)) (p : Position)
      (name : QName) (as : Attributes) (q : Position) (endName : QName)
      (names : ∀ n ∈ name :: as.map (·.name), n.IsColonless ∧ n.IsInScope (ds.map (·.2.1) ++ scope))
      (stems : StemsFrom document (ds.map (·.2), .startTag p name as))
      (inside : Woven document (ds.map (·.2.1) ++ scope) children) (after : Woven document scope rest) :
      Woven document scope (declarations ds ++ .startTag p name as :: (children ++ .endTag q endName :: rest))
  | sub {scope : List Text} {es rest : List Event} (p : Position) (ds : List Directive)
      (repeating : ∀ d ∈ ds, d.isRepeating = true) (inside : Woven document scope es) (after : Woven document scope rest) :
      Woven document scope (.sub p ds es :: rest)

/-- A meaning that gives whole elements whenever it succeeds. -/
def GivesBlock (document : List Event) (scope : List Text) (m : Meaning) : Prop :=
  ∀ s fs r, m s = ⟨fs, .ok r⟩ → Block document scope fs

variable {k : Nat}

theorem andThen_ok {m n : Meaning} {s r : Store} (h : m.andThen n s = ⟨fs, .ok r⟩) :
    ∃ first t rest, m s = ⟨first, .ok t⟩ ∧ n t = ⟨rest, .ok r⟩ ∧ fs = first ++ rest := by
  unfold Meaning.andThen at h
  generalize m s = o at h
  obtain ⟨first, result⟩ := o
  cases result with
  | error => cases h
  | ok t =>
    injection h with events result
    exact ⟨first, t, (n t).events, rfl, by rw [← result], events.symm⟩

theorem compute_ok {α : Type} {m : Eval α} {f : α → Meaning} {s r : Store} (h : Meaning.compute m f s = ⟨fs, .ok r⟩) :
    ∃ a t, m s = .ok (a, t) ∧ f a t = ⟨fs, .ok r⟩ := by
  unfold Meaning.compute at h
  split at h
  · rename_i a t computed
    exact ⟨a, t, computed, h⟩
  · cases h

theorem meaningOf_append_ok {es es' : List Event} {s r : Store} (h : Event.meaningOf k (es ++ es') s = ⟨fs, .ok r⟩) :
    ∃ first t rest, Event.meaningOf k es s = ⟨first, .ok t⟩ ∧ Event.meaningOf k es' t = ⟨rest, .ok r⟩ ∧
      fs = first ++ rest := by
  induction es generalizing s fs with
  | nil => exact ⟨[], s, fs, rfl, h, rfl⟩
  | cons e es ih =>
    obtain ⟨first, t, rest, head, tail, rfl⟩ := andThen_ok (n := Event.meaningOf k (es ++ es')) h
    obtain ⟨middle, q, last, before, after, rfl⟩ := ih tail
    refine ⟨first ++ middle, q, last, ?_, after, (List.append_assoc _ _ _).symm⟩
    have head : e.meaning k s = ⟨first, .ok t⟩ := head
    change (e.meaning k).andThen (Event.meaningOf k es) s = _
    rw [Meaning.andThen, head]
    simp only [before]

theorem meaningOf_cons_ok {e : Event} {es : List Event} {s r : Store} (h : Event.meaningOf k (e :: es) s = ⟨fs, .ok r⟩) :
    ∃ first t rest, e.meaning k s = ⟨first, .ok t⟩ ∧ Event.meaningOf k es t = ⟨rest, .ok r⟩ ∧ fs = first ++ rest :=
  andThen_ok h

/-- Blocks after each other. -/
theorem givesBlock_all {ms : List Meaning} (h : ∀ m ∈ ms, GivesBlock document scope m) :
    GivesBlock document scope (Meaning.all ms) := by
  induction ms with
  | nil =>
    rintro s fs r ⟨⟩
    exact .nil
  | cons m ms ih =>
    obtain ⟨first, others⟩ := List.forall_mem_cons.1 h
    intro s fs r gives
    obtain ⟨es, t, rest, head, tail, rfl⟩ := andThen_ok gives
    exact (first s es t head).append (ih others t rest r tail)

theorem Attribute.name_eval {a : Attribute} {a? : Option Attribute} {s r : Store} (h : a.eval k s = .ok (a?, r)) :
    ∀ b ∈ a?, b.name = a.name := by
  unfold Attribute.eval at h
  split at h
  · cases h
    rintro b ⟨⟩
    rfl
  · obtain ⟨t?, q, -, given⟩ := Eval.of_bind_ok h
    cases given
    intro b hb
    obtain ⟨t, -, rfl⟩ := Option.mem_map.1 hb
    rfl

/-- Attributes whose value is nothing are left out. -/
theorem Attributes.names_eval {as as' : Attributes} {s r : Store} (h : Attributes.eval k as s = .ok (as', r)) :
    (as'.map (·.name)).Sublist (as.map (·.name)) := by
  induction as generalizing as' s with
  | nil =>
    cases h
    exact .slnil
  | cons a as ih =>
    obtain ⟨a?, t, first, h⟩ := Eval.of_bind_ok h
    obtain ⟨rest, q, others, given⟩ := Eval.of_bind_ok h
    cases given
    have name := Attribute.name_eval first
    cases a? with
    | none => exact (ih others).cons a.name
    | some b =>
      change ((b :: rest).map _).Sublist _
      rw [List.map_cons, List.map_cons, name b rfl]
      exact (ih others).cons_cons a.name

/-- Directives that give whole elements do not rewrite them. -/
theorem rewriteAll_repeating {ds : List Directive} (h : ∀ d ∈ ds, d.isRepeating = true) (ps : List Piece) :
    Directive.rewriteAll k ds ps = pure ps := by
  induction ds with
  | nil => rfl
  | cons d ds ih =>
    obtain ⟨first, others⟩ := List.forall_mem_cons.1 h
    have rest := ih others
    unfold Directive.rewriteAll at rest ⊢
    rw [List.foldr_cons, rest]
    cases d with
    | loop | condition => rfl
    | _ => cases first

theorem givesBlock_iteration {targets : List Text} {ps : List Piece} {item : Value}
    (inside : GivesBlock document scope (Piece.meaningOf ps)) :
    GivesBlock document scope (Directive.iteration targets ps item) := by
  intro s fs r gives
  obtain ⟨frame, t, -, gives⟩ := compute_ok gives
  change (⟨(Piece.meaningOf ps (t.pushFrame frame)).events, (Piece.meaningOf ps (t.pushFrame frame)).result.map _⟩ :
    Outcome) = _ at gives
  cases under : Piece.meaningOf ps (t.pushFrame frame) with
  | mk es result =>
    rw [under] at gives
    cases result with
    | error => cases gives
    | ok q =>
      cases gives
      exact inside _ _ _ under

/-- A loop or a test of an element gives it any number of times. -/
theorem givesBlock_meaning {ds : List Directive} (repeating : ∀ d ∈ ds, d.isRepeating = true) {ps : List Piece}
    (inside : GivesBlock document scope (Piece.meaningOf ps)) : GivesBlock document scope (Directive.meaning k ds ps) := by
  intro s fs r gives
  obtain ⟨kept, t, -, gives⟩ := compute_ok gives
  -- the element is there, or nothing is
  have body : ∀ {t q : Store} {qs : List Piece},
      (if kept = true then Directive.rewriteAll k ds ps else pure [] : Eval (List Piece)) t = .ok (qs, q) →
      GivesBlock document scope (Piece.meaningOf qs) := by
    intro t q qs computed
    cases kept with
    | true =>
      rw [if_pos rfl, rewriteAll_repeating repeating] at computed
      cases computed
      exact inside
    | false =>
      cases computed
      exact givesBlock_all (by simp)
  cases loop : Directive.loop? ds with
  | none =>
    simp only [loop] at gives
    obtain ⟨qs, q, computed, gives⟩ := compute_ok gives
    exact body computed _ _ _ gives
  | some pair =>
    simp only [loop] at gives
    obtain ⟨v, q, -, gives⟩ := compute_ok gives
    split at gives
    · cases gives
      exact .nil
    · obtain ⟨vs, x, -, gives⟩ := compute_ok gives
      obtain ⟨qs, y, computed, gives⟩ := compute_ok gives
      refine givesBlock_all (fun m hm => ?_) _ _ _ gives
      obtain ⟨item, -, rfl⟩ := List.mem_map.1 hm
      exact givesBlock_iteration (body computed)

theorem meaningOf_declarations {ds : List (Position × Text × Text)} {s r : Store}
    (h : Event.meaningOf k (declarations ds) s = ⟨fs, .ok r⟩) : fs = declarations ds := by
  induction ds generalizing s fs with
  | nil =>
    cases h
    rfl
  | cons d ds ih =>
    obtain ⟨first, t, rest, head, tail, rfl⟩ := meaningOf_cons_ok h
    cases head
    rw [ih tail]
    rfl

/-- An event that is no tag gives at most one that is no tag either. -/
theorem givesBlock_leaf {e : Event} (leaf : e.isLeaf = true) (noStart : e.isStart = false) (noEnd : e.isEnd = false)
    (noNamespace : ∀ p pre uri, e ≠ .startNamespace p pre uri) : GivesBlock document scope (e.meaning k) := by
  intro s fs r gives
  cases e with
  | startTag => cases noStart
  | blank | sub => cases leaf
  | expression p x =>
    obtain ⟨v, t, -, gives⟩ := compute_ok gives
    cases gives
    split
    · exact .nil
    · exact .single rfl rfl (by simp)
  | _ =>
    cases gives
    exact .single noStart noEnd noNamespace

/-- **Whole elements are evaluated to whole elements.** -/
theorem givesBlock_meaningOf (h : Woven document scope es) : GivesBlock document scope (Event.meaningOf k es) := by
  induction h with
  | nil =>
    rintro s fs r ⟨⟩
    exact .nil
  | other leaf noStart noEnd noNamespace after ih =>
    intro s fs r gives
    obtain ⟨first, t, rest, head, tail, rfl⟩ := meaningOf_cons_ok gives
    exact (givesBlock_leaf leaf noStart noEnd noNamespace s first t head).append (ih t rest r tail)
  | @element scope children rest ds p name as q endName names stems inside after ih ih' =>
    intro s fs r gives
    obtain ⟨first, t, _, head, afterDeclared, rfl⟩ := meaningOf_append_ok gives
    obtain rfl := meaningOf_declarations head
    obtain ⟨tag, x, _, start, afterStart, rfl⟩ := meaningOf_cons_ok afterDeclared
    obtain ⟨content, y, _, middle, afterContent, rfl⟩ := meaningOf_append_ok afterStart
    obtain ⟨ending, z, others, last, afterEnd, rfl⟩ := meaningOf_cons_ok afterContent
    cases last
    obtain ⟨as', x', evaluated, start⟩ := compute_ok start
    cases start
    have sublist := Attributes.names_eval evaluated
    have kept : ∀ n ∈ name :: as'.map (·.name), n ∈ name :: as.map (·.name) := fun n hn =>
      (List.mem_cons.1 hn).elim (fun same => same ▸ List.mem_cons_self) fun other =>
        List.mem_cons_of_mem _ (sublist.subset other)
    obtain ⟨d, _, _, _, source, member, same, fewer⟩ := stems
    obtain ⟨declared, ⟨⟩⟩ := Prod.mk.inj same
    have whole : Block document scope (declarations ds ++ .startTag p name as' :: (content ++ [.endTag q endName])) :=
      .element ds q endName (fun n hn => names n (kept n hn)) ⟨d, _, _, _, source, member, by rw [declared], sublist.trans fewer⟩
        (ih _ _ _ middle)
    have result := whole.append (ih' _ _ _ afterEnd)
    simpa using result
  | @sub scope es rest p ds repeating inside after ih ih' =>
    intro s fs r gives
    obtain ⟨first, t, others, head, tail, rfl⟩ := meaningOf_cons_ok gives
    exact (givesBlock_meaning repeating ih s first t head).append (ih' t others r tail)

end Stencil
