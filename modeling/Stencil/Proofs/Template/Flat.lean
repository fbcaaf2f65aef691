import Stencil.Proofs.Template.Compilation

/-!
# Compiling into one output

The events of a template can be collected in one list, with the directives of open elements in a table next to it.
An entry of the table is found by the depth at which its element was opened, a word that counts elements opened less
elements closed and wraps, and says at which place of the output the start tag of the element is. At the end tag the
output from there on is folded to one `sub` event.

Nothing is asked of the events: an end tag may come before any start tag, and elements may stay open. The elements
with directives that are open form a stack (`Flat.Open`), the innermost one first, on which depths and offsets descend.
The output up to the start tag of each of them is the output at the time it was read, so a fold, which only touches
what comes after, leaves the entries of the others valid. One lemma for each kind of event says what becomes of the
stack.
-/

namespace Stencil

namespace Compile

/-- The last event is read in the state after those before it, with their number as its index. -/
theorem foldlM_zipIdx_concat {σ ε : Type} (f : σ → Event × Nat → Except ε σ) (s : σ) (es : List Event) (e : Event) :
    (es ++ [e]).zipIdx.foldlM f s = (es.zipIdx.foldlM f s).bind fun s => f s (e, es.length) := by
  simp only [List.zipIdx_append, List.foldlM_append, Nat.zero_add]
  cases es.zipIdx.foldlM f s with
  | error x => rfl
  | ok s =>
    simp only [List.zipIdx_cons, List.zipIdx_nil, List.foldlM_cons, List.foldlM_nil, bind, Except.bind]
    cases f s (e, es.length) <;> rfl

/-- The directives of an open element. -/
structure Pending where
  directives : List Directive
  /-- where the start tag of the element is in the output -/
  offset : Nat

/-- The state of the compiler with one output. -/
structure Flat where
  /-- the declared prefixes of the directive namespace -/
  prefixes : List Text
  /-- the elements opened less the elements closed -/
  depth : UInt32
  /-- the directives of open elements by the depth at which the element was opened -/
  pending : Std.TreeMap UInt32 Pending
  /-- the events so far, the first one first -/
  output : List Event
  filters : List Filter

namespace Flat

def initial : Flat := ⟨[], 0, ∅, [], []⟩

/-- Appends an event. -/
def push (l : Flat) (e : Event) : Flat := { l with output := l.output ++ [e] }

/-- Opens an element. If the table had an entry at this depth, that one would stay and the new one be lost. -/
def openElement (l : Flat) (tag : Event) (readings : List DirectiveReading) : Flat :=
  { l with
    depth := l.depth + 1
    pending :=
      if readings.isEmpty then l.pending
      else l.pending.insertIfNew l.depth ⟨sortByRank (readings.map (·.directive)), l.output.length⟩
    output := l.output ++ [tag]
    filters := l.filters ++ readings.flatMap DirectiveReading.filters }

/-- Closes an element. If directives are pending at its depth, the output from their offset on becomes a `sub` event. -/
def closeElement (l : Flat) (tag : Event) : Flat :=
  let depth := l.depth - 1
  let output := l.output ++ [tag]
  match l.pending[depth]? with
  | none => { l with depth, output }
  | some p =>
    let slice := output.drop p.offset
    { l with
      depth
      pending := l.pending.erase depth
      output := output.take p.offset ++ [.sub (slice.headD .blank).position p.directives slice] }

/-- Reads one event, which has the given index. -/
def step (t : Target) (l : Flat) : Event × Nat → Except SourceError Flat
  | (.startNamespace p pre uri, _) =>
    .ok (if uri == Template.directiveNamespace then { l with prefixes := pre :: l.prefixes }
      else l.push (.startNamespace p pre uri))
  | (.endNamespace p pre, _) =>
    .ok (if l.prefixes.contains pre then { l with prefixes := l.prefixes.erase pre }
      else l.push (.endNamespace p pre))
  | (.startTag p name attributes, index) => do
    let readings ← (attributes.filter isDirective).mapM (readDirective t index p)
    return l.openElement (.startTag p name (ordinaryAttributes attributes)) readings
  | (.endTag p name, _) => .ok (l.closeElement (.endTag p name))
  | (.text p text, _) => .ok { l with output := l.output ++ textEvents p text }
  | (e, _) => .ok (l.push e)

/-- Reads events from the first one on. -/
def read (t : Target) (es : List Event) : Except SourceError Flat := es.zipIdx.foldlM (step t) initial

/-- The template that has been read in the end. -/
def finished (t : Target) (l : Flat) : Template := ⟨t.id, t.filename, l.output, [.evaluate], l.filters, [.tidy]⟩

/-- The template of a list of events. -/
def template (t : Target) (es : List Event) : Except SourceError Template := (read t es).map (finished t)

theorem read_concat (t : Target) (es : List Event) (e : Event) :
    read t (es ++ [e]) = (read t es).bind fun l => step t l (e, es.length) :=
  foldlM_zipIdx_concat (step t) initial es e

theorem step_startTag (t : Target) (l : Flat) (index : Nat) (p : Position) (name : QName) (as : Attributes) :
    step t l (.startTag p name as, index) =
      (readingsOf t index p as).map (l.openElement (.startTag p name (ordinaryAttributes as))) := rfl

end Flat

/-! ## Depths -/

/-- What an event adds to the number of open elements. -/
def rise : Event → Int
  | .startTag .. => 1
  | .endTag .. => -1
  | _ => 0

/-- The elements opened less the elements closed; nothing keeps it from being negative. -/
def depthAfter : List Event → Int
  | [] => 0
  | e :: es => rise e + depthAfter es

theorem depthAfter_append (es fs : List Event) : depthAfter (es ++ fs) = depthAfter es + depthAfter fs := by
  induction es with
  | nil => exact (Int.zero_add _).symm
  | cons e es ih => simp only [List.cons_append, depthAfter, ih, Int.add_assoc]

theorem depthAfter_concat (es : List Event) (e : Event) : depthAfter (es ++ [e]) = depthAfter es + rise e := by
  rw [depthAfter_append]
  exact congrArg _ (Int.add_zero _)

theorem depthAfter_falls {e : Event} (falls : rise e = -1) (es : List Event) :
    depthAfter (es ++ [e]) = depthAfter es - 1 := by
  rw [depthAfter_concat, falls, Int.sub_eq_add_neg]

theorem depthAfter_le (es : List Event) : depthAfter es ≤ es.length := by
  induction es with
  | nil => exact Int.le_refl 0
  | cons e es ih =>
    have one : rise e ≤ 1 := by cases e <;> simp [rise]
    rw [depthAfter, List.length_cons]
    omega

/-- The words of two depths that are close to each other tell them apart. -/
theorem eq_of_ofInt_eq {a b : Int} (same : UInt32.ofInt a = UInt32.ofInt b) (le : a ≤ b) (near : b - a < UInt32.size) :
    a = b := by
  have words := congrArg UInt32.toNat same
  simp only [UInt32.ofInt, UInt32.toNat_ofNat', UInt32.size] at words near
  omega

theorem ofInt_add_one (a : Int) : UInt32.ofInt (a + 1) = UInt32.ofInt a + 1 := by
  rw [UInt32.ofInt_add, UInt32.ofInt_one]

theorem ofInt_sub_one (a : Int) : UInt32.ofInt (a - 1) = UInt32.ofInt a - 1 := by
  have := ofInt_add_one (a - 1)
  rw [Int.sub_add_cancel] at this
  rw [this, UInt32.add_sub_cancel]

/-! ## Open elements -/

/-- The start tag of an element with directives, read in a state that was reached. -/
structure Opening (t : Target) where
  /-- the events in front of it -/
  before : List Event
  position : Position
  name : QName
  attributes : Attributes
  state : Flat
  readings : List DirectiveReading
  reached : Flat.read t before = .ok state
  read : readingsOf t before.length position attributes = .ok readings
  directives : readings ≠ []

namespace Opening

variable {t : Target}

/-- The start tag as it is read. -/
def tag (o : Opening t) : Event := .startTag o.position o.name o.attributes

/-- The start tag in the output. -/
def written (o : Opening t) : Event := .startTag o.position o.name (ordinaryAttributes o.attributes)

/-- The depth at which the element is opened. -/
def depth (o : Opening t) : Int := depthAfter o.before

/-- What is pending while the element is open. -/
def entry (o : Opening t) : Pending := ⟨sortByRank (o.readings.map (·.directive)), o.state.output.length⟩

/-- The start tag is among the events, and no event since has come back to its depth. -/
def OpenAfter (o : Opening t) (es : List Event) : Prop :=
  o.before ++ [o.tag] <+: es ∧ ∀ mid, o.before ++ [o.tag] <+: mid → mid <+: es → o.depth < depthAfter mid

variable {o o' : Opening t} {es : List Event} {e : Event}

/-- Events are read in one way only. -/
theorem ext_of_read (place : o.before = o'.before) (same : o.tag = o'.tag) : o = o' := by
  obtain ⟨es, p, name, as, l, rs, reached, read, some⟩ := o
  obtain ⟨es', p', name', as', l', rs', reached', read', some'⟩ := o'
  obtain rfl : es = es' := place
  cases same
  cases reached.symm.trans reached'
  cases read.symm.trans read'
  rfl

/-- Only a start tag opens an element. -/
theorem tag_ne (o : Opening t) (other : rise e ≠ 1) : o.tag ≠ e := by
  rintro rfl
  exact other rfl

theorem OpenAfter.deeper (h : o.OpenAfter es) : o.depth < depthAfter es := h.2 es h.1 (List.prefix_refl es)

/-- The depth at which an open element was opened is not far below the depth reached. -/
theorem OpenAfter.near (h : o.OpenAfter es) : depthAfter es - o.depth ≤ es.length := by
  obtain ⟨rest, rfl⟩ := h.1
  have grown := depthAfter_le ([o.tag] ++ rest)
  rw [List.append_assoc, depthAfter_append, List.length_append]
  simp only [depth] at grown ⊢
  omega

/-- After one more event, an element is open if the event opens it, or if it was open and the event does not come back
to its depth. -/
theorem openAfter_concat :
    o.OpenAfter (es ++ [e]) ↔
      (o.before = es ∧ o.tag = e) ∨ (o.OpenAfter es ∧ o.depth < depthAfter (es ++ [e])) := by
  constructor
  · rintro ⟨tagRead, deeper⟩
    rcases List.prefix_concat_iff.1 tagRead with last | earlier
    · exact .inl (List.append_inj' last rfl |>.imp_right (by simp))
    · exact .inr ⟨⟨earlier, fun mid after upTo => deeper mid after (upTo.trans (List.prefix_append es [e]))⟩,
        deeper _ tagRead (List.prefix_refl _)⟩
  · rintro (⟨rfl, rfl⟩ | ⟨⟨tagRead, deeper⟩, last⟩)
    · refine ⟨List.prefix_refl _, fun mid after upTo => ?_⟩
      rw [← after.eq_of_length_le upTo.length_le, depthAfter_concat]
      exact Int.lt_succ _
    · refine ⟨tagRead.trans (List.prefix_append es [e]), fun mid after upTo => ?_⟩
      rcases List.prefix_concat_iff.1 upTo with rfl | upTo
      · exact last
      · exact deeper mid after upTo

end Opening

/-! ## The stack of open elements -/

namespace Flat

variable {t : Target}

/-- A state after some events, and the stack of the elements with directives that are open. -/
structure Open (es : List Event) (l : Flat) (os : List (Opening t)) : Prop where
  depth : l.depth = UInt32.ofInt (depthAfter es)
  mem_iff : ∀ o, o ∈ os ↔ o.OpenAfter es
  nested : os.Pairwise fun o outer => outer.depth < o.depth ∧ outer.state.output ++ [outer.written] <+: o.state.output
  /-- the output up to the start tag has not changed since it was read -/
  kept : ∀ o ∈ os, o.state.output ++ [o.written] <+: l.output
  pending_iff : ∀ k p, l.pending[k]? = some p ↔ ∃ o ∈ os, UInt32.ofInt o.depth = k ∧ o.entry = p

theorem open_initial : Open [] initial ([] : List (Opening t)) where
  depth := rfl
  mem_iff o := by simp [Opening.OpenAfter]
  nested := List.Pairwise.nil
  kept := by simp
  pending_iff k p := by simp [initial]

variable {es : List Event} {e : Event} {l l' : Flat} {os : List (Opening t)} {o : Opening t} {p : Pending}

theorem Open.deeper (h : Open es l os) : ∀ o ∈ os, o.depth < depthAfter es := fun o mem =>
  ((h.mem_iff o).1 mem).deeper

theorem Open.near (h : Open es l os) : ∀ o ∈ os, depthAfter es - o.depth ≤ es.length := fun o mem =>
  ((h.mem_iff o).1 mem).near

/-- What is pending at a depth that no element on the stack is beyond belongs to an element opened at that depth. -/
theorem Open.pending_at_iff (h : Open es l os) (short : es.length < UInt32.size) {d : Int}
    (shallow : ∀ o ∈ os, o.depth ≤ d) (reached : d ≤ depthAfter es) :
    l.pending[UInt32.ofInt d]? = some p ↔ ∃ o ∈ os, o.depth = d ∧ o.entry = p := by
  rw [h.pending_iff]
  refine exists_congr fun o => and_congr_right fun mem => and_congr_left fun _ => ⟨fun same => ?_, congrArg _⟩
  have near := h.near o mem
  exact eq_of_ofInt_eq same (shallow o mem) (by omega)

/-- Nothing is pending yet at the depth that has been reached. -/
theorem Open.pending_depth (h : Open es l os) (short : es.length < UInt32.size) : l.pending[l.depth]? = none := by
  rw [h.depth, Option.eq_none_iff_forall_ne_some]
  intro p found
  have shallow : ∀ o ∈ os, o.depth ≤ depthAfter es := fun o mem => Int.le_of_lt (h.deeper o mem)
  obtain ⟨o, mem, same, -⟩ := (h.pending_at_iff short shallow (Int.le_refl _)).1 found
  exact Int.ne_of_lt (h.deeper o mem) same

/-- What is pending at the depth that an end tag comes back to. -/
theorem Open.pending_closing_iff (h : Open es l os) (short : es.length < UInt32.size) :
    l.pending[l.depth - 1]? = some p ↔ ∃ o ∈ os, o.depth = depthAfter es - 1 ∧ o.entry = p := by
  rw [h.depth, ← ofInt_sub_one]
  exact h.pending_at_iff short (fun o mem => Int.le_sub_one_of_lt (h.deeper o mem)) (by omega)

/-- An event that opens no element with directives and closes none leaves the stack as it is. -/
theorem Open.keep (h : Open es l os) (noOpening : ∀ o : Opening t, o.before = es → o.tag ≠ e)
    (deeper : ∀ o ∈ os, o.depth < depthAfter (es ++ [e])) (depth : l'.depth = UInt32.ofInt (depthAfter (es ++ [e])))
    (pending : l'.pending = l.pending) (output : l.output <+: l'.output) : Open (es ++ [e]) l' os where
  depth := depth
  mem_iff o := by
    rw [Opening.openAfter_concat, h.mem_iff]
    exact ⟨fun isOpen => .inr ⟨isOpen, deeper o ((h.mem_iff o).2 isOpen)⟩,
      fun cases => cases.elim (fun opens => absurd opens.2 (noOpening o opens.1)) (·.1)⟩
  nested := h.nested
  kept o mem := (h.kept o mem).trans output
  pending_iff := by rw [pending]; exact h.pending_iff

/-- A start tag with directives puts its element on the stack. -/
theorem Open.opened (h : Open o.before o.state os) (short : o.before.length < UInt32.size) :
    Open (o.before ++ [o.tag]) (o.state.openElement o.written o.readings) (o :: os) where
  depth := by
    change o.state.depth + 1 = _
    rw [h.depth, depthAfter_concat, ← ofInt_add_one]
    rfl
  mem_iff o' := by
    rw [Opening.openAfter_concat, List.mem_cons, h.mem_iff]
    refine or_congr ⟨fun same => same ▸ ⟨rfl, rfl⟩, fun ⟨before, tag⟩ => Opening.ext_of_read before tag⟩
      ⟨fun isOpen => ⟨isOpen, ?_⟩, And.left⟩
    rw [depthAfter_concat]
    exact isOpen.deeper.trans (Int.lt_succ _)
  nested := List.pairwise_cons.2 ⟨fun o' mem => ⟨h.deeper o' mem, h.kept o' mem⟩, h.nested⟩
  kept := List.forall_mem_cons.2 ⟨List.prefix_refl _, fun o' mem => (h.kept o' mem).trans (List.prefix_append _ _)⟩
  pending_iff k p := by
    have free := h.pending_depth short
    have new : o.state.depth ∉ o.state.pending := by rwa [Std.TreeMap.mem_iff_isSome_getElem?, Option.not_isSome_iff_eq_none]
    have own : (o.state.openElement o.written o.readings).pending = o.state.pending.insertIfNew o.state.depth o.entry := by
      simp [openElement, o.directives, Opening.entry]
    have word : UInt32.ofInt o.depth = o.state.depth := h.depth.symm
    rw [own, Std.TreeMap.getElem?_insertIfNew, List.exists_mem_cons_iff, ← h.pending_iff, word]
    by_cases here : o.state.depth = k
    · subst here
      simp [new]
    · simp [here]

/-- The output since the innermost start tag begins with it, and the output before it is what it was. -/
theorem Open.slice (h : Open es l (o :: os)) (e : Event) :
    ∃ inner, (l.output ++ [e]).drop o.entry.offset = o.written :: (inner ++ [e]) ∧
      (l.output ++ [e]).take o.entry.offset = o.state.output := by
  obtain ⟨inner, grown⟩ := h.kept o List.mem_cons_self
  refine ⟨inner, ?_, ?_⟩ <;> simp [← grown, Opening.entry]

/-- An event that comes back to the depth of the innermost element closes it: its entry is dropped, and the output
since its start tag is folded. -/
theorem Open.closeElement_eq (h : Open es l (o :: os)) (short : es.length < UInt32.size)
    (closes : o.depth = depthAfter es - 1) (e : Event) :
    l.closeElement e =
      { l with
        depth := l.depth - 1
        pending := l.pending.erase (l.depth - 1)
        output := o.state.output ++ [.sub o.position o.entry.directives ((l.output ++ [e]).drop o.entry.offset)] } := by
  have found : l.pending[l.depth - 1]? = some o.entry :=
    (h.pending_closing_iff short).2 ⟨o, List.mem_cons_self, closes, rfl⟩
  obtain ⟨inner, slice, front⟩ := h.slice e
  have position : (((l.output ++ [e]).drop o.entry.offset).headD .blank).position = o.position := by
    rw [slice]
    rfl
  simp only [closeElement, found, front, position]

/-- The entries of the other elements are at other depths than that of the innermost one. -/
theorem Open.apart (h : Open es l (o :: os)) (short : es.length < UInt32.size) :
    ∀ o' ∈ os, UInt32.ofInt o'.depth ≠ UInt32.ofInt o.depth := fun o' mem same => by
  have outer := ((List.pairwise_cons.1 h.nested).1 o' mem).1
  have deeper := h.deeper o List.mem_cons_self
  have near := h.near o' (List.mem_cons_of_mem o mem)
  exact Int.ne_of_lt outer (eq_of_ofInt_eq same (Int.le_of_lt outer) (by omega))

/-- The end tag of the innermost element takes it off the stack. -/
theorem Open.closed (h : Open es l (o :: os)) (short : es.length < UInt32.size)
    (closes : o.depth = depthAfter es - 1) (falls : rise e = -1) : Open (es ++ [e]) (l.closeElement e) os := by
  obtain ⟨inside, nested⟩ := List.pairwise_cons.1 h.nested
  have depth : depthAfter (es ++ [e]) = o.depth := (depthAfter_falls falls es).trans closes.symm
  have word : l.depth - 1 = UInt32.ofInt o.depth := by rw [h.depth, closes, ofInt_sub_one]
  rw [h.closeElement_eq short closes]
  exact {
    depth := word.trans (congrArg _ depth.symm)
    mem_iff := fun o' => by
      rw [Opening.openAfter_concat, ← h.mem_iff, List.mem_cons, depth]
      constructor
      · exact fun mem => .inr ⟨.inr mem, (inside o' mem).1⟩
      · rintro (⟨-, same⟩ | ⟨rfl | mem, outside⟩)
        · exact absurd same (o'.tag_ne (by omega))
        · exact absurd outside (Int.lt_irrefl _)
        · exact mem
    nested
    kept := fun o' mem => (inside o' mem).2.trans (List.prefix_append _ _)
    pending_iff := fun k p => by
      rw [word, Std.TreeMap.getElem?_erase]
      by_cases here : UInt32.ofInt o.depth = k
      · -- the depth of the element that is closed
        subst here
        simpa using fun o' mem same => absurd same (h.apart short o' mem)
      · simp [here, h.pending_iff] }

/-- An end tag that closes no element on the stack leaves it as it is. -/
theorem Open.passed (h : Open es l os) (short : es.length < UInt32.size) (others : ∀ o ∈ os, o.depth ≠ depthAfter es - 1)
    (falls : rise e = -1) :
    l.closeElement e = { l with depth := l.depth - 1, output := l.output ++ [e] } ∧
      Open (es ++ [e]) (l.closeElement e) os := by
  have none : l.pending[l.depth - 1]? = none := by
    rw [Option.eq_none_iff_forall_ne_some]
    intro p found
    obtain ⟨o, mem, closes, -⟩ := (h.pending_closing_iff short).1 found
    exact others o mem closes
  have depth := depthAfter_falls falls es
  have passed : l.closeElement e = { l with depth := l.depth - 1, output := l.output ++ [e] } := by
    simp only [closeElement, none]
  refine ⟨passed, passed ▸ h.keep (fun o _ => o.tag_ne (by omega)) (fun o mem => ?_) ?_ rfl (List.prefix_append _ _)⟩
  · have deeper := h.deeper o mem
    have other := others o mem
    omega
  · rw [depth, ofInt_sub_one, ← h.depth]

end Flat

end Compile

end Stencil
