import Mathlib.Data.List.Sort
import Stencil.Template.Compile
import Stencil.Proofs.Document.Forest

/-!
# What a document compiles to

The compiler goes over the events of a document once and keeps a stack of the elements with
directives that are open. Its result is the recursive compilation of the element forest
(`Tree.compileAll`): an element without directives keeps its tags, one with directives becomes a
single `sub` event that holds its directives in the order of their rank, and texts become their
pieces. Declarations of namespaces are left aside on both sides.

The step lemma is `Compile.run_tree`: while a tree is read, carriers and level come back to what
they were, and the output grows by what the tree compiles to.
-/

namespace Stencil

/-! ## Leaving declarations of namespaces aside -/

namespace Event

def isDeclaration : Event → Bool
  | startNamespace .. | endNamespace .. => true
  | _ => false

mutual

/-- The event without the declarations of namespaces inside of it. -/
def undeclared : Event → Event
  | sub p ds es => sub p ds (undeclaredAll es)
  | e => e

/-- The events that declare no namespace. -/
def undeclaredAll : List Event → List Event
  | [] => []
  | e :: es => if e.isDeclaration then undeclaredAll es else e.undeclared :: undeclaredAll es

end

theorem undeclaredAll_append (es fs : List Event) :
    undeclaredAll (es ++ fs) = undeclaredAll es ++ undeclaredAll fs := by
  induction es with
  | nil => rfl
  | cons e es ih =>
    simp only [List.cons_append, undeclaredAll, ih]
    split <;> rfl

end Event

open Event

/-! ## The recursive compilation -/

namespace Compile

/-- The directives of a start tag, read in order. -/
def readingsOf (t : Target) (index : Nat) (p : Position) (as : Attributes) : Except SourceError (List DirectiveReading) :=
  (as.filter isDirective).mapM (readDirective t index p)

/-- Of two computations, one after the other, both succeed if there is a result. -/
theorem bind_eq_ok_iff {α β ε : Type} {x : Except ε α} {f : α → Except ε β} {b : β} :
    x.bind f = .ok b ↔ ∃ a, x = .ok a ∧ f a = .ok b := by
  cases x <;> simp [Except.bind]

/-- What is read of the value of a loop is a loop, over what stands behind the first separator. -/
theorem readLoop_ok {value : Text} {d : Directive} (h : Directive.readLoop value = .ok d) :
    ∃ n targets items, Text.indexOf? Directive.loopSeparator value = some n ∧
      Directive.loopTargets value (value.take n) = .ok targets ∧
      Directive.requiredExpression .loop (value.drop (n + Directive.loopSeparator.length)) = .ok items ∧
      d = .loop targets items := by
  unfold Directive.readLoop at h
  split at h
  · cases h
  · rename_i n found
    obtain ⟨ts, targets, h⟩ := bind_eq_ok_iff.1 h
    obtain ⟨x, items, h⟩ := bind_eq_ok_iff.1 h
    cases h
    exact ⟨n, ts, x, found, targets, items, rfl⟩

/-- The events of an element, given its directives: with directives they are one `sub` event. -/
def wrap (p : Position) (readings : List DirectiveReading) (es : List Event) : List Event :=
  if readings.isEmpty then es
  else [.sub p ((readings.map (·.directive)).insertionSort (·.rank ≤ ·.rank)) es]

end Compile

namespace Tree

open Compile

mutual

/-- What a tree compiles to; `index` events come before it. -/
def compile (t : Target) (index : Nat) : Tree → Except SourceError (List Event)
  | element p name as children q endName => do
    let readings ← readingsOf t index p as
    let content ← compileAll t (index + 1) children
    return wrap p readings (.startTag p name (ordinaryAttributes as) :: (content ++ [.endTag q endName]))
  | leaf (.text p s) _ _ _ => .ok (textEvents p s)
  | leaf e _ _ _ => .ok (if e.isDeclaration then [] else [e])

/-- What a forest compiles to. -/
def compileAll (t : Target) (index : Nat) : List Tree → Except SourceError (List Event)
  | [] => .ok []
  | n :: ns => do
    let es ← n.compile t index
    let fs ← compileAll t (index + n.events.length) ns
    return es ++ fs

end

end Tree

/-! ## Reading the events of a tree -/

namespace Compile

/-- Reads events, the first of which has the given index. -/
def run (t : Target) (s : State) (es : List Event) (index : Nat) : Except SourceError State :=
  (es.zipIdx index).foldlM (step t) s

theorem run_append (t : Target) (s : State) (es fs : List Event) (index : Nat) :
    run t s (es ++ fs) index = (run t s es index).bind fun s => run t s fs (index + es.length) := by
  simp only [run, List.zipIdx_append, List.foldlM_append]
  rfl

theorem run_cons (t : Target) (s : State) (e : Event) (es : List Event) (index : Nat) :
    run t s (e :: es) index = (step t s (e, index)).bind fun s => run t s es (index + 1) := rfl

theorem run_cons_ok {t : Target} {s s' : State} {e : Event} {es : List Event} {index : Nat} :
    run t s (e :: es) index = .ok s' ↔ ∃ mid, step t s (e, index) = .ok mid ∧ run t mid es (index + 1) = .ok s' := by
  rw [run_cons, bind_eq_ok_iff]

theorem run_append_ok {t : Target} {s s' : State} {es fs : List Event} {index : Nat} :
    run t s (es ++ fs) index = .ok s' ↔
      ∃ mid, run t s es index = .ok mid ∧ run t mid fs (index + es.length) = .ok s' := by
  rw [run_append, bind_eq_ok_iff]

/-- The events so far are those in front of the carriers and those since. -/
theorem State.events_eq (s : State) : s.events = (s.output ++ s.carriers.flatMap (·.before)).reverse := by
  unfold State.events
  congr 1
  generalize s.output = output
  induction s.carriers generalizing output with
  | nil => simp
  | cons c cs ih => rw [List.foldl_cons, ih, List.flatMap_cons, List.append_assoc]

@[simp] theorem run_nil (t : Target) (s : State) (index : Nat) : run t s [] index = .ok s := rfl

/-- The template that has been read in the end. -/
def State.finished (t : Target) (s : State) : Template :=
  ⟨t.id, t.filename, s.events, [.evaluate], s.filters, [.tidy]⟩

theorem template_eq (t : Target) (es : List Event) : template t es = (run t .initial es 0).map (State.finished t) := rfl

theorem template_ok {t : Target} {es : List Event} {m : Template} (h : template t es = .ok m) :
    ∃ s, run t .initial es 0 = .ok s ∧ State.finished t s = m := by
  rw [template_eq] at h
  cases read : run t .initial es 0 with
  | error e => rw [read] at h; cases h
  | ok s =>
    rw [read] at h
    exact ⟨s, rfl, Except.ok.inj h⟩

/-- What a document compiles to is what the events that are read of it compile to. -/
theorem events_of_document {t : Target} {document : List Callback} {m : Template}
    (h : (Compilation.ofDocument t document).result = .ok m) :
    ∃ es, Document.read document = .ok es ∧ template t es = .ok m := by
  unfold Compilation.ofDocument at h
  split at h
  · rename_i es read
    unfold Compilation.ofEvents at h
    dsimp only at h
    split at h
    · rename_i m result
      cases h
      exact ⟨es, read, result⟩
    · cases h
  · cases h

/-- The second state has the events `out` more than the first one, declarations aside. -/
structure Grown (s : State) (out : List Event) (s' : State) : Prop where
  carriers : s'.carriers = s.carriers
  level : s'.level = s.level
  output : ∃ es, s'.output = es.reverse ++ s.output ∧ undeclaredAll es = out

theorem Grown.trans {s s' s'' : State} {out out' : List Event} (h : Grown s out s') (h' : Grown s' out' s'') :
    Grown s (out ++ out') s'' := by
  obtain ⟨es, hes, rfl⟩ := h.output
  obtain ⟨fs, hfs, rfl⟩ := h'.output
  exact ⟨h'.carriers.trans h.carriers, h'.level.trans h.level, es ++ fs, by rw [hfs, hes]; simp,
    undeclaredAll_append es fs⟩

/-- Reading comes to what the specification says: the same error, or the same events. -/
def Matches (s : State) (spec : Except SourceError (List Event)) (result : Except SourceError State) : Prop :=
  match spec with
  | .error e => result = .error e
  | .ok out => ∃ s', result = .ok s' ∧ Grown s out s'

theorem sortByRank_eq (ds : List Directive) : sortByRank ds = ds.insertionSort (·.rank ≤ ·.rank) := by
  have insert : ∀ (d : Directive) (es : List Directive), insertByRank d es = es.orderedInsert (·.rank ≤ ·.rank) d := by
    intro d es
    induction es with
    | nil => rfl
    | cons e es ih => simp only [insertByRank, List.orderedInsert_cons, ih]
  induction ds with
  | nil => rfl
  | cons d ds ih =>
    change insertByRank d (sortByRank ds) = _
    rw [ih, insert]
    rfl

theorem undeclared_textEvents (p : Position) (s : Text) : undeclaredAll (textEvents p s) = textEvents p s := by
  simp only [textEvents]
  induction interpolate s with
  | nil => rfl
  | cons f fs ih => cases f <;> simp [undeclaredAll, isDeclaration, undeclared, ih]

/-- A text becomes its pieces. -/
theorem grown_text (s : State) (p : Position) (text : Text) :
    Grown s (textEvents p text) { s with output := (textEvents p text).reverse ++ s.output } :=
  ⟨rfl, rfl, _, rfl, undeclared_textEvents p text⟩

/-- Any other event that is no tag stays what it is, or is a declaration. -/
theorem grown_push (s : State) {e : Event} (h : e.isMarkup = true) :
    Grown s (if e.isDeclaration then [] else [e]) (s.push e) := by
  refine ⟨rfl, rfl, [e], rfl, ?_⟩
  cases e <;> first | rfl | cases h

theorem step_leaf (t : Target) (s : State) (index : Nat) {e : Event} (markup : e.isMarkup = true)
    (noStart : e.isStart = false) (noEnd : e.isEnd = false) :
    Matches s ((Tree.leaf e markup noStart noEnd).compile t index) (step t s (e, index)) := by
  have kept : ∀ q, Grown s [] { s with prefixes := q } := fun q => ⟨rfl, rfl, [], rfl, rfl⟩
  cases e with
  | startNamespace p pre uri =>
    refine ⟨_, rfl, ?_⟩
    change Grown s [] (if uri == Template.directiveNamespace then _ else _)
    split
    · exact kept _
    · exact grown_push s markup
  | endNamespace p pre =>
    refine ⟨_, rfl, ?_⟩
    change Grown s [] (if s.prefixes.contains pre then _ else _)
    split
    · exact kept _
    · exact grown_push s markup
  | text p text => exact ⟨_, rfl, grown_text s p text⟩
  | comment | instruction | doctype => exact ⟨_, rfl, grown_push s markup⟩
  | startTag => cases noStart
  | endTag => cases noEnd
  | blank | expression | sub => cases markup

/-! ## Elements -/

theorem step_startTag (t : Target) (s : State) (index : Nat) (p : Position) (name : QName) (as : Attributes) :
    step t s (.startTag p name as, index) =
      (readingsOf t index p as).map (s.openElement (.startTag p name (ordinaryAttributes as))) := rfl

/-- A start tag opens an element if all its directives can be read. -/
theorem step_startTag_ok {t : Target} {s s' : State} {index : Nat} {p : Position} {name : QName} {as : Attributes} :
    step t s (.startTag p name as, index) = .ok s' ↔
      ∃ rs, readingsOf t index p as = .ok rs ∧ s.openElement (.startTag p name (ordinaryAttributes as)) rs = s' := by
  rw [step_startTag]
  cases readingsOf t index p as <;> simp [Except.map]

/-- The second state has the events `es` more than the first one. -/
structure Extended (s : State) (es : List Event) (s' : State) : Prop where
  carriers : s'.carriers = s.carriers
  level : s'.level = s.level
  output : s'.output = es.reverse ++ s.output

theorem Extended.refl (s : State) : Extended s [] s := ⟨rfl, rfl, rfl⟩

theorem Extended.trans {s s' s'' : State} {es fs : List Event} (h : Extended s es s') (h' : Extended s' fs s'') :
    Extended s (es ++ fs) s'' :=
  ⟨h'.carriers.trans h.carriers, h'.level.trans h.level, by rw [h'.output, h.output, List.reverse_append, List.append_assoc]⟩

/-- Closing an element undoes opening it: its events, wrapped as its directives ask for, are appended. -/
theorem extended_element {s s' : State} (readings : List DirectiveReading) (p q : Position) (name endName : QName)
    (as : Attributes) {es : List Event} (h : Extended (s.openElement (.startTag p name as) readings) es s') :
    Extended s (wrap p readings (.startTag p name as :: (es ++ [.endTag q endName]))) (s'.closeElement (.endTag q endName)) := by
  obtain ⟨carriers, level, output⟩ := h
  by_cases plain : readings.isEmpty = true
  · -- the element is inside of the innermost carrier, so its end tag does not close that one
    simp only [State.openElement, plain, if_true, State.push] at carriers level output
    have closed : s'.closeElement (.endTag q endName) =
        { s'.push (.endTag q endName) with level := s.level } := by
      rw [State.closeElement]
      split
      · omega
      · rw [level]; rfl
    rw [closed]
    refine ⟨carriers, rfl, ?_⟩
    simp [State.push, output, wrap, plain]
  · simp only [State.openElement, plain, Bool.false_eq_true, if_false] at carriers level output
    have closed : s'.closeElement (.endTag q endName) =
        { s' with
          carriers := s.carriers
          output := .sub p (sortByRank (readings.map (·.directive)))
            (.startTag p name as :: (es ++ [.endTag q endName])) :: s.output
          level := s.level } := by
      rw [State.closeElement, carriers, level]
      simp [output, position]
    rw [closed]
    refine ⟨rfl, rfl, ?_⟩
    simp [wrap, plain, sortByRank_eq]

theorem undeclaredAll_wrap (p q : Position) (name endName : QName) (as : Attributes) (readings : List DirectiveReading)
    (es : List Event) :
    undeclaredAll (wrap p readings (.startTag p name as :: (es ++ [.endTag q endName]))) =
      wrap p readings (.startTag p name as :: (undeclaredAll es ++ [.endTag q endName])) := by
  unfold wrap
  split <;> simp [undeclaredAll, undeclaredAll_append, isDeclaration, undeclared]

theorem grown_element (s s' : State) (readings : List DirectiveReading) (p q : Position) (name endName : QName)
    (as : Attributes) {content : List Event}
    (h : Grown (s.openElement (.startTag p name as) readings) content s') :
    Grown s (wrap p readings (.startTag p name as :: (content ++ [.endTag q endName])))
      (s'.closeElement (.endTag q endName)) := by
  obtain ⟨carriers, level, es, output, rfl⟩ := h
  obtain ⟨carriers, level, output⟩ := extended_element readings p q name endName as ⟨carriers, level, output⟩
  exact ⟨carriers, level, _, output, undeclaredAll_wrap p q name endName as readings es⟩

mutual

/-- Reading a tree comes to what the tree compiles to. -/
theorem run_tree (t : Target) (n : Tree) (index : Nat) (s : State) :
    Matches s (n.compile t index) (run t s n.events index) := by
  cases n with
  | leaf e markup noStart noEnd =>
    have := step_leaf t s index markup noStart noEnd
    simp only [Tree.events, run_cons]
    cases h : step t s (e, index) <;> rw [h] at this <;> exact this
  | element p name as children q endName =>
    simp only [Tree.events, run_cons, step_startTag, Tree.compile]
    cases hr : readingsOf t index p as with
    | error e => rfl
    | ok readings =>
      have inner := run_forest t children (index + 1) (s.openElement (.startTag p name (ordinaryAttributes as)) readings)
      simp only [Except.map, Except.bind, run_append]
      cases hc : Tree.compileAll t (index + 1) children with
      | error e =>
        rw [hc] at inner
        simp only [Matches] at inner
        rw [inner]
        rfl
      | ok content =>
        rw [hc] at inner
        obtain ⟨s', hs', grown⟩ := inner
        rw [hs']
        exact ⟨_, rfl, grown_element s s' readings p q name endName _ grown⟩

/-- Reading a forest comes to what the forest compiles to. -/
theorem run_forest (t : Target) (f : List Tree) (index : Nat) (s : State) :
    Matches s (Tree.compileAll t index f) (run t s (Tree.eventsOf f) index) := by
  cases f with
  | nil => exact ⟨s, rfl, rfl, rfl, [], rfl, rfl⟩
  | cons n ns =>
    simp only [Tree.eventsOf, run_append, Tree.compileAll]
    have first := run_tree t n index s
    cases hn : n.compile t index with
    | error e =>
      rw [hn] at first
      simp only [Matches] at first
      rw [first]
      rfl
    | ok es =>
      rw [hn] at first
      obtain ⟨s', hs', grown⟩ := first
      rw [hs']
      have rest := run_forest t ns (index + n.events.length) s'
      simp only [Except.bind, bind] at rest ⊢
      cases hf : Tree.compileAll t (index + n.events.length) ns with
      | error e =>
        rw [hf] at rest
        simp only [Matches] at rest
        rw [rest]
        rfl
      | ok fs =>
        rw [hf] at rest
        obtain ⟨s'', hs'', grown'⟩ := rest
        rw [hs'']
        exact ⟨s'', rfl, grown.trans grown'⟩

end

/-! ## Whole documents -/

/-- The compiler does to a forest what the recursive compilation does, errors included. -/
theorem template_eventsOf (t : Target) (f : List Tree) :
    (template t (Tree.eventsOf f)).map (fun m => undeclaredAll m.events) = Tree.compileAll t 0 f := by
  have h := run_forest t f 0 .initial
  rw [template_eq]
  cases hf : Tree.compileAll t 0 f with
  | error e =>
    rw [hf] at h
    simp only [Matches] at h
    rw [h]
    rfl
  | ok out =>
    rw [hf] at h
    obtain ⟨s, hs, carriers, -, es, output, rfl⟩ := h
    rw [hs]
    simp [Except.map, State.finished, State.events, carriers, output, State.initial]

/-- **The compiler is the recursive compilation.** A well-nested document has one element forest, and,
declarations of namespaces aside, the document compiles to what its forest compiles to. -/
theorem template_of_wellNested (t : Target) {es : List Event} (h : WellNested es) :
    ∃ f, (∀ g, Tree.eventsOf g = es ↔ g = f) ∧
      (template t es).map (fun m => undeclaredAll m.events) = Tree.compileAll t 0 f := by
  obtain ⟨f, rfl⟩ := wellNested_iff_forest.1 h
  exact ⟨f, fun g => ⟨fun hg => Tree.eventsOf_injective hg, fun hg => hg ▸ rfl⟩, template_eventsOf t f⟩

/-- A list with a condition whose items are a loop. -/
def conditionalList : List Tree :=
  let directive (base : Text) : QName := ⟨Template.directiveNamespace, "py", base⟩
  let item : Tree := .element ⟨1, 9⟩ (.plain "li")
    [⟨.plain "class", [.literal "c"]⟩, ⟨directive "for", [.literal "x in xs"]⟩, ⟨directive "strip", [.literal ""]⟩]
    [.leaf (.text ⟨1, 20⟩ "a $x b") rfl rfl rfl] ⟨1, 30⟩ (.plain "li")
  [.leaf (.startNamespace ⟨1, 0⟩ "py" Template.directiveNamespace) rfl rfl rfl,
    .element ⟨1, 0⟩ (.plain "ul") [⟨directive "if", [.literal "xs"]⟩] [item, item] ⟨1, 39⟩ (.plain "ul"),
    .leaf (.endNamespace ⟨1, 39⟩ "py") rfl rfl rfl]

theorem template_of_wellNested_list :
    WellNested (Tree.eventsOf conditionalList) ∧
      (template ⟨0, "t.xml", .empty⟩ (Tree.eventsOf conditionalList)).map (fun m => undeclaredAll m.events) =
        let item : Event := .sub ⟨1, 9⟩ [.loop ["x"] ⟨"xs"⟩, .strip none]
          [.startTag ⟨1, 9⟩ (.plain "li") [⟨.plain "class", [.literal "c"]⟩], .text ⟨1, 20⟩ "a ",
            .expression ⟨1, 20⟩ ⟨"x"⟩, .text ⟨1, 20⟩ " b", .endTag ⟨1, 30⟩ (.plain "li")]
        .ok [.sub ⟨1, 0⟩ [.condition ⟨"xs"⟩]
          [.startTag ⟨1, 0⟩ (.plain "ul") [], item, item, .endTag ⟨1, 39⟩ (.plain "ul")]] := by
  have nested : WellNested (Tree.eventsOf conditionalList) := ⟨by decide, by decide⟩
  obtain ⟨f, forest, compiled⟩ := template_of_wellNested ⟨0, "t.xml", .empty⟩ nested
  have same : conditionalList = f := (forest _).1 rfl
  rw [compiled, ← same]
  exact ⟨nested, rfl⟩

end Compile

end Stencil
