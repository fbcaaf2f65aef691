import Stencil.Proofs.Expr.Effect
import Stencil.Directive.Parser

/-!
# Closed parts of a template

The names that an expression looks up, and the parts of a template that look up no names but given ones. The variables of a
loop are bound for what is evaluated inside of it, that is for the events of its element and for what takes the place of
them, but not for the tests and the attributes of the element itself: these are computed only once.
-/

namespace Stencil

/-! ## Names -/

namespace Expr

mutual

/-- The names that an expression looks up. -/
def names : Expr → List Text
  | literal _ => []
  | name n => [n]
  | member object _ => object.names
  | item object key => object.names ++ key.names
  | call function arguments keywords => function.names ++ namesOf arguments ++ namesOfKeywords keywords
  | list elements => namesOf elements
  | dict entries => namesOfEntries entries
  | unary _ operand => operand.names
  | binary _ left right => left.names ++ right.names
  | conditional test value other => test.names ++ value.names ++ other.names

def namesOf : List Expr → List Text
  | [] => []
  | e :: es => e.names ++ namesOf es

def namesOfKeywords : List (Text × Expr) → List Text
  | [] => []
  | (_, e) :: es => e.names ++ namesOfKeywords es

def namesOfEntries : List (Expr × Expr) → List Text
  | [] => []
  | (k, e) :: es => k.names ++ e.names ++ namesOfEntries es

end

end Expr

/-- The names that an expression of a template looks up, none if it can't be read. -/
def Expression.names (x : Expression) : List Text :=
  match x.tree with
  | .ok tree => tree.names
  | .error _ => []

/-- Names that are looked up in frames with the given ones. Were `defined` the name of an argument that is missing, it would
be the function that looks at the whole context. -/
def Names.ClosedIn (bound : List Text) (ns : List Text) : Prop := ∀ n ∈ ns, n ∈ bound ∧ n ≠ "defined"

/-- The expression looks up none but the given names. -/
def Expression.ClosedIn (bound : List Text) (x : Expression) : Prop := Names.ClosedIn bound x.names

/-! ## Events -/

namespace Directive

/-- The names that the loop of an element binds. -/
def targets (ds : List Directive) : List Text := ds.flatMap fun
  | loop targets _ => targets
  | _ => []

/-- The expressions of a directive look up none but the given names: `inside` is bound where the events of the element are
evaluated, `bound` around it. The directive captures nothing. -/
def ClosedIn (bound inside : List Text) : Directive → Prop
  | loop _ x | condition x | attributes x => x.ClosedIn bound
  | replace x | content x => x.ClosedIn inside
  | strip x? | extension _ x? => ∀ x ∈ x?, x.ClosedIn bound
  | define .. | capture _ | expand .. => False

end Directive

/-- The expressions of attributes look up none but the given names. -/
def Attributes.ClosedIn (bound : List Text) (as : Attributes) : Prop :=
  ∀ a ∈ as, ∀ x ∈ a.expressions, x.ClosedIn bound

section

variable (spared : Event → Prop)

mutual

/-- The expressions of an event look up none but the given names. All events that come out of it are spared. -/
def Event.ClosedIn : List Text → Event → Prop
  | bound, .startTag p name as => spared (.startTag p name as) ∧ as.ClosedIn bound
  | bound, .expression _ x => x.ClosedIn bound
  | bound, .sub _ ds es => (ds.Pairwise (·.rank < ·.rank) ∧
      ∀ d ∈ ds, d.ClosedIn bound (Directive.targets ds ++ bound)) ∧ AllClosedIn (Directive.targets ds ++ bound) es
  | _, e => spared e

def Event.AllClosedIn : List Text → List Event → Prop
  | _, [] => True
  | bound, e :: es => e.ClosedIn bound ∧ AllClosedIn bound es

end

end

section

variable {spared : Event → Prop} {bound bound' : List Text}

theorem Names.ClosedIn.mono (wider : bound ⊆ bound') {ns : List Text} (h : Names.ClosedIn bound ns) :
    Names.ClosedIn bound' ns :=
  fun n hn => ⟨wider (h n hn).1, (h n hn).2⟩

theorem Names.closedIn_append {ns ms : List Text} :
    Names.ClosedIn bound (ns ++ ms) ↔ Names.ClosedIn bound ns ∧ Names.ClosedIn bound ms := by
  simp only [ClosedIn, List.forall_mem_append]

theorem Event.allClosedIn_iff {es : List Event} :
    Event.AllClosedIn spared bound es ↔ ∀ e ∈ es, e.ClosedIn spared bound := by
  induction es with
  | nil => simp [AllClosedIn]
  | cons e es ih => simp [AllClosedIn, ih]

theorem Expression.ClosedIn.mono (wider : bound ⊆ bound') {x : Expression} (h : x.ClosedIn bound) : x.ClosedIn bound' :=
  Names.ClosedIn.mono wider h

theorem Directive.ClosedIn.mono {inside inside' : List Text} (wider : bound ⊆ bound') (wider' : inside ⊆ inside')
    {d : Directive}
    (h : d.ClosedIn bound inside) : d.ClosedIn bound' inside' := by
  cases d with
  | loop | condition | attributes => exact Names.ClosedIn.mono wider h
  | replace | content => exact Names.ClosedIn.mono wider' h
  | strip | extension => exact fun x hx => (h x hx).mono wider
  | define | capture | expand => exact h.elim

mutual

/-- What is closed stays so when more names are bound. -/
theorem Event.ClosedIn.mono : {bound bound' : List Text} → bound ⊆ bound' → (e : Event) → e.ClosedIn spared bound →
    e.ClosedIn spared bound'
  | _, _, wider, .startTag .., h => ⟨h.1, fun a ha x hx => (h.2 a ha x hx).mono wider⟩
  | _, _, wider, .expression .., h => Expression.ClosedIn.mono wider h
  | bound, bound', wider, .sub _ ds es, ⟨⟨sorted, directives⟩, events⟩ => by
    have inside : Directive.targets ds ++ bound ⊆ Directive.targets ds ++ bound' :=
      List.append_subset.2 ⟨List.subset_append_left _ _, List.subset_append_of_subset_right _ wider⟩
    exact ⟨⟨sorted, fun d hd => (directives d hd).mono wider inside⟩, Event.AllClosedIn.mono inside es events⟩
  | _, _, _, .blank, h | _, _, _, .endTag .., h | _, _, _, .text .., h | _, _, _, .startNamespace .., h
  | _, _, _, .endNamespace .., h | _, _, _, .comment .., h | _, _, _, .instruction .., h | _, _, _, .doctype .., h => h

theorem Event.AllClosedIn.mono : {bound bound' : List Text} → bound ⊆ bound' → (es : List Event) →
    AllClosedIn spared bound es → AllClosedIn spared bound' es
  | _, _, _, [], _ => trivial
  | _, _, wider, e :: es, h => ⟨Event.ClosedIn.mono wider e h.1, Event.AllClosedIn.mono wider es h.2⟩

end

end

end Stencil
