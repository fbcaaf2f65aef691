import Mathlib.Data.List.Induction
import Stencil.Proofs.Template.Flat

/-!
# Pending directives

The compiler, which keeps the events in front of each open element with directives with its carrier, and the one with
one output and a table give the same template (`Flat.template_eq`). The carriers and the stack of open elements go
along with each other: the events in front of a carrier are the output at the time its element was opened.

From the stack it follows that the entries of the table stay valid, whatever the events are
(`Compile.pending_valid`).
-/

namespace Stencil

namespace Compile

variable {t : Target}

/-! ## The two compilers -/

/-- What carriers hold: the directives of each and the number of events in front of its element. -/
def pendingOf : List Carrier → List Pending
  | [] => []
  | c :: cs => ⟨c.directives, (c.before ++ cs.flatMap (·.before)).length⟩ :: pendingOf cs

/-- The carriers are those of the open elements. The innermost one was opened as many levels further out as there are
open elements inside of it. -/
inductive Carried : Int → Nat → List Carrier → List (Opening t) → Prop
  | outside (depth : Int) (level : Nat) : Carried depth level [] []
  | inside {depth : Int} {level : Nat} {c : Carrier} {cs : List Carrier} {o : Opening t} {os : List (Opening t)}
      (opened : o.depth = depth - level - 1) (directives : o.entry.directives = c.directives)
      (before : o.state.output = (c.before ++ cs.flatMap (·.before)).reverse) (outer : Carried o.depth c.level cs os) :
      Carried depth level (c :: cs) (o :: os)

/-- Depth and level change together. -/
theorem Carried.shift {depth depth' : Int} {level level' : Nat} {cs : List Carrier} {os : List (Opening t)}
    (h : Carried depth level cs os) (same : depth' - level' = depth - level) : Carried depth' level' cs os := by
  cases h with
  | outside => exact .outside depth' level'
  | inside opened directives before outer => exact .inside (by omega) directives before outer

/-- No element on the stack was opened further in than the innermost carrier. -/
theorem Carried.depth_le {depth : Int} {level : Nat} {cs : List Carrier} {os : List (Opening t)}
    (h : Carried depth level cs os) : ∀ o ∈ os, o.depth ≤ depth - level - 1 := by
  induction h with
  | outside => simp
  | inside opened directives before outer ih =>
    refine List.forall_mem_cons.2 ⟨Int.le_of_eq opened, fun o mem => ?_⟩
    have further := ih o mem
    omega

/-- An end tag inside of the innermost carrier, or outside of all. -/
theorem Carried.passed {depth : Int} {level : Nat} {cs : List Carrier} {os : List (Opening t)}
    (h : Carried depth level cs os) (within : cs = [] ∨ level ≠ 0) : Carried (depth - 1) (level - 1) cs os := by
  cases h with
  | outside => exact .outside _ _
  | inside opened directives before outer =>
    have level := within.resolve_left (by simp)
    exact .inside (by omega) directives before outer

/-- The entries of the elements on the stack are what the carriers hold. -/
theorem Carried.entries {depth : Int} {level : Nat} {cs : List Carrier} {os : List (Opening t)}
    (h : Carried depth level cs os) : os.map (·.entry) = pendingOf cs := by
  induction h with
  | outside => rfl
  | @inside depth level c cs o os opened directives before outer ih =>
    have offset : o.entry.offset = (c.before ++ cs.flatMap (·.before)).length := by
      rw [← List.length_reverse, ← before]
      rfl
    rw [List.map_cons, ih, pendingOf, ← directives, ← offset]

/-- The two compilers have read the same. -/
structure Alike (es : List Event) (s : State) (l : Flat) (os : List (Opening t)) : Prop where
  stack : l.Open es os
  carried : Carried (depthAfter es) s.level s.carriers os
  prefixes : l.prefixes = s.prefixes
  output : l.output = s.events
  filters : l.filters = s.filters

/-- Both fail for the same reason, or both read the same. -/
def Agree (t : Target) (es : List Event) : Except SourceError State → Except SourceError Flat → Prop
  | .ok s, .ok l => ∃ os : List (Opening t), Alike es s l os
  | .error x, .error y => x = y
  | _, _ => False

/-- Two computations that agree go on to agree. -/
theorem Agree.bind {es es' : List Event} {x : Except SourceError State} {y : Except SourceError Flat}
    {f : State → Except SourceError State} {g : Flat → Except SourceError Flat} (h : Agree t es x y)
    (next : ∀ s l (os : List (Opening t)), y = .ok l → Alike es s l os → Agree t es' (f s) (g l)) :
    Agree t es' (x.bind f) (y.bind g) := by
  cases x <;> cases y
  case error.error => exact h
  case ok.ok s l =>
    obtain ⟨os, same⟩ := h
    exact next s l os rfl same
  all_goals cases h

theorem State.events_push (s : State) (e : Event) : (s.push e).events = s.events ++ [e] := by
  simp [State.events_eq, State.push]

variable {es : List Event} {e : Event} {s s' : State} {l l' : Flat} {os : List (Opening t)}

theorem alike_initial : Alike [] .initial .initial ([] : List (Opening t)) :=
  ⟨Flat.open_initial, .outside _ _, rfl, rfl, rfl⟩

/-- Both outputs grow by what an event that is no tag is read to. -/
theorem Alike.grown (h : Alike es s l os) (level : rise e = 0) (prefixes : List Text) (out : List Event) :
    Alike (es ++ [e]) { s with prefixes, output := out.reverse ++ s.output }
      { l with prefixes, output := l.output ++ out } os := by
  have depth : depthAfter (es ++ [e]) = depthAfter es := by rw [depthAfter_concat, level, Int.add_zero]
  have output := h.output
  rw [State.events_eq] at output
  exact {
    stack := h.stack.keep (fun o _ => o.tag_ne (by omega)) (depth ▸ h.stack.deeper)
      (depth ▸ h.stack.depth) rfl (List.prefix_append _ _)
    carried := depth ▸ h.carried
    prefixes := rfl
    output := by simp [State.events_eq, output]
    filters := h.filters }

/-- An event that is no tag is read to the same by both. -/
theorem Alike.leaf (h : Alike es s l os) (level : rise e = 0) :
    Agree t (es ++ [e]) (step t s (e, es.length)) (l.step t (e, es.length)) := by
  have declared (ps : List Text) : Alike (es ++ [e]) { s with prefixes := ps } { l with prefixes := ps } os := by
    simpa using h.grown level ps []
  have extended (out : List Event) : Alike (es ++ [e]) { s with output := out.reverse ++ s.output }
      { l with output := l.output ++ out } os := by
    simpa only [← h.prefixes] using h.grown level s.prefixes out
  have pushed : Alike (es ++ [e]) (s.push e) (l.push e) os := extended [e]
  cases e with
  | startNamespace p pre uri =>
    refine ⟨os, ?_⟩
    split
    · exact h.prefixes ▸ declared (pre :: s.prefixes)
    · exact pushed
  | endNamespace p pre =>
    refine ⟨os, ?_⟩
    rw [h.prefixes]
    split
    · exact declared (s.prefixes.erase pre)
    · exact pushed
  | text p text => exact ⟨os, extended (textEvents p text)⟩
  | startTag | endTag => cases level
  | blank | comment | instruction | doctype | expression | sub => exact ⟨os, pushed⟩

/-- A start tag without directives opens one more element inside of the innermost carrier. -/
theorem Alike.plain (h : Alike es s l os) {p : Position} (name : QName) {as : Attributes}
    (read : readingsOf t es.length p as = .ok []) :
    Alike (es ++ [.startTag p name as]) (s.openElement (.startTag p name (ordinaryAttributes as)) [])
      (l.openElement (.startTag p name (ordinaryAttributes as)) []) os := by
  have depth : depthAfter (es ++ [.startTag p name as]) = depthAfter es + 1 := depthAfter_concat _ _
  have noOpening (o : Opening t) (here : o.before = es) : o.tag ≠ .startTag p name as := by
    intro same
    obtain ⟨before, p', name', as', l', rs', reached', read', some⟩ := o
    obtain rfl : before = es := here
    cases same
    exact some (Except.ok.inj (read'.symm.trans read))
  exact {
    stack := by
      refine h.stack.keep noOpening (fun o mem => ?_) ?_ rfl (List.prefix_append _ _)
      · have deeper := h.stack.deeper o mem
        omega
      · rw [depth, ofInt_add_one, ← h.stack.depth]
        rfl
    carried := by
      have shift : depthAfter es + 1 - ((s.level + 1 : Nat) : Int) = depthAfter es - s.level := by omega
      rw [depth]
      exact h.carried.shift shift
    prefixes := h.prefixes
    output := by simp [State.openElement, Flat.openElement, State.events_eq, State.push, h.output]
    filters := by simpa [State.openElement, Flat.openElement, State.push] using h.filters }

/-- A start tag with directives opens the innermost carrier, and its element is put on the stack. -/
theorem Alike.opened {o : Opening t} (h : Alike o.before s o.state os) (short : o.before.length < UInt32.size) :
    Alike (o.before ++ [o.tag]) (s.openElement o.written o.readings) (o.state.openElement o.written o.readings)
      (o :: os) := by
  have opens : s.openElement o.written o.readings =
      { s with
        carriers := ⟨o.entry.directives, s.output, s.level⟩ :: s.carriers
        output := [o.written]
        level := 0
        filters := s.filters ++ o.readings.flatMap DirectiveReading.filters } := by
    simp [State.openElement, o.directives, Opening.entry]
  have depth : depthAfter (o.before ++ [o.tag]) = o.depth + 1 := depthAfter_concat _ _
  rw [opens]
  exact {
    stack := h.stack.opened short
    carried := by
      have here : o.depth = o.depth + 1 - ((0 : Nat) : Int) - 1 := by omega
      rw [depth]
      exact .inside here rfl (h.output.trans (State.events_eq s)) h.carried
    prefixes := h.prefixes
    output := by
      show o.state.output ++ [o.written] = _
      simp [h.output, State.events_eq]
    filters := congrArg (· ++ _) h.filters }

/-- An end tag closes the innermost carrier if no element inside of it is open. -/
theorem State.closeElement_carrier {c : Carrier} {cs : List Carrier} (carriers : s.carriers = c :: cs)
    (level : s.level = 0) (tag : Event) :
    s.closeElement tag =
      { s with
        carriers := cs
        output := .sub ((tag :: s.output).reverse.headD .blank).position c.directives (tag :: s.output).reverse :: c.before
        level := c.level } := by
  simp only [State.closeElement, carriers, level]

theorem State.closeElement_level (inside : s.carriers = [] ∨ s.level ≠ 0) (tag : Event) :
    s.closeElement tag = { s.push tag with level := s.level - 1 } := by
  unfold State.closeElement
  split
  · rename_i carriers level
    simp [carriers, level] at inside
  · rfl

/-- An end tag that closes neither a carrier nor an element on the stack. -/
theorem Alike.passed (h : Alike es s l os) (short : es.length < UInt32.size) (inside : s.carriers = [] ∨ s.level ≠ 0)
    (falls : rise e = -1) : Alike (es ++ [e]) (s.closeElement e) (l.closeElement e) os := by
  have depth := depthAfter_falls falls es
  have others : ∀ o ∈ os, o.depth ≠ depthAfter es - 1 := fun o mem same => by
    have further := (h.carried.passed inside).depth_le o mem
    omega
  obtain ⟨passed, stack⟩ := h.stack.passed short others falls
  rw [passed] at stack ⊢
  rw [State.closeElement_level inside]
  exact {
    stack
    carried := depth ▸ h.carried.passed inside
    prefixes := h.prefixes
    output := by
      show l.output ++ [e] = (s.push e).events
      rw [State.events_push, h.output]
    filters := h.filters }

/-- An end tag that closes the innermost carrier takes its element off the stack, and both fold the same events. -/
theorem Alike.closed {c : Carrier} {cs : List Carrier} (h : Alike es s l os) (short : es.length < UInt32.size)
    (carriers : s.carriers = c :: cs) (level : s.level = 0) (falls : rise e = -1) :
    ∃ os' : List (Opening t), Alike (es ++ [e]) (s.closeElement e) (l.closeElement e) os' := by
  have depth := depthAfter_falls falls es
  have carried := h.carried
  rw [carriers, level] at carried
  cases carried with
  | @inside _ _ _ _ o os opened directives before outer =>
    have closes : o.depth = depthAfter es - 1 := by omega
    have stack := h.stack.closed short closes falls
    rw [h.stack.closeElement_eq short closes] at stack ⊢
    rw [State.closeElement_carrier carriers level]
    -- the output since the start tag is what has been read since the carrier was opened
    have folded : (l.output ++ [e]).drop o.entry.offset = (e :: s.output).reverse := by
      have since : l.output ++ [e] = o.state.output ++ (e :: s.output).reverse := by
        simp [h.output, State.events_eq, carriers, before]
      rw [since]
      exact List.drop_left
    have position : ((e :: s.output).reverse.headD .blank).position = o.position := by
      obtain ⟨inner, slice, -⟩ := h.stack.slice e
      rw [← folded, slice]
      rfl
    refine ⟨os, stack, ?_, h.prefixes, ?_, h.filters⟩
    · rw [depth, ← closes]
      exact outer
    · show o.state.output ++ [.sub o.position o.entry.directives ((l.output ++ [e]).drop o.entry.offset)] = _
      rw [State.events_eq, folded, position, directives, before]
      simp

/-! ## Both compilers on any events -/

theorem Alike.step (h : Alike es s l os) (short : es.length < UInt32.size) (reached : Flat.read t es = .ok l) (e : Event) :
    Agree t (es ++ [e]) (Compile.step t s (e, es.length)) (l.step t (e, es.length)) := by
  cases e with
  | startTag p name as =>
    rw [step_startTag, Flat.step_startTag]
    cases read : readingsOf t es.length p as with
    | error x => rfl
    | ok rs =>
      cases none : rs with
      | nil => exact ⟨os, h.plain name (none ▸ read)⟩
      | cons r rs' =>
        let o : Opening t := ⟨es, p, name, as, l, rs, reached, read, none ▸ List.cons_ne_nil r rs'⟩
        exact ⟨o :: os, none ▸ Alike.opened (o := o) h short⟩
  | endTag q name =>
    cases level : s.level with
    | zero =>
      cases carriers : s.carriers with
      | nil => exact ⟨os, h.passed short (.inl carriers) rfl⟩
      | cons c cs => exact h.closed short carriers level rfl
    | succ n => exact ⟨os, h.passed short (.inr (by omega)) rfl⟩
  | blank | text | startNamespace | endNamespace | comment | instruction | doctype | expression | sub => exact h.leaf rfl

/-- The two compilers agree after any fewer than 2 ^ 32 events. -/
theorem agree (t : Target) (es : List Event) (short : es.length < UInt32.size) :
    Agree t es (run t .initial es 0) (Flat.read t es) := by
  induction es using List.reverseRecOn with
  | nil => exact ⟨[], alike_initial⟩
  | append_singleton es e ih =>
    have short : es.length < UInt32.size := Nat.lt_of_le_of_lt (by simp) short
    have last : run t .initial (es ++ [e]) 0 = (run t .initial es 0).bind fun s => step t s (e, es.length) :=
      foldlM_zipIdx_concat (step t) .initial es e
    rw [last, Flat.read_concat]
    exact (ih short).bind fun s l os reached same => same.step short reached e

/-- The compiler with one output gives the same template, or fails for the same reason. -/
theorem Flat.template_eq (t : Target) (es : List Event) (short : es.length < UInt32.size) :
    Flat.template t es = Compile.template t es := by
  have same := agree t es short
  rw [Compile.template_eq, Flat.template]
  generalize run t .initial es 0 = x, Flat.read t es = y at same ⊢
  cases x <;> cases y
  case error.error => exact congrArg Except.error (Eq.symm same)
  case ok.ok s l =>
    obtain ⟨os, same⟩ := same
    simp [Except.map, Flat.finished, State.finished, same.output, same.filters]
  all_goals cases same

/-- What one compiler can read, the other one reads to the same. -/
theorem alike_of_run (short : es.length < UInt32.size) (read : run t .initial es 0 = .ok s) :
    ∃ l, Flat.read t es = .ok l ∧ ∃ os : List (Opening t), Alike es s l os := by
  have same := agree t es short
  rw [read] at same
  cases reached : Flat.read t es with
  | error y =>
    rw [reached] at same
    cases same
  | ok l =>
    rw [reached] at same
    exact ⟨l, rfl, same⟩

/-! ## The entries of the table -/

/-- The entry of an open element points at its start tag. -/
theorem Flat.Open.points {o : Opening t} (h : l.Open es os) (mem : o ∈ os) :
    o.entry.offset < l.output.length ∧ l.output[o.entry.offset]? = some o.written := by
  obtain ⟨inner, grown⟩ := h.kept o mem
  simp [← grown, Opening.entry]

/-- What is pending where an end tag comes back to is the entry of the innermost element on the stack. -/
theorem Flat.Open.innermost {p : Pending} (h : l.Open es os) (short : es.length < UInt32.size)
    (found : l.pending[l.depth - 1]? = some p) :
    ∃ o outer, os = o :: outer ∧ o.depth = depthAfter es - 1 ∧ o.entry = p := by
  obtain ⟨o, mem, closes, rfl⟩ := (h.pending_closing_iff short).1 found
  cases os with
  | nil => cases mem
  | cons o' outer =>
    rcases List.mem_cons.1 mem with rfl | further
    · exact ⟨o, outer, rfl, closes, rfl⟩
    · have outside := ((List.pairwise_cons.1 h.nested).1 o further).1
      have deeper := h.deeper o' List.mem_cons_self
      omega

/-- No entry is overwritten when an element is opened. -/
theorem Flat.pending_openElement {k : UInt32} {p : Pending} (found : l.pending[k]? = some p) (tag : Event)
    (rs : List DirectiveReading) : (l.openElement tag rs).pending[k]? = some p := by
  have known : k ∈ l.pending := by rw [Std.TreeMap.mem_iff_isSome_getElem?, found, Option.isSome_some]
  simp only [Flat.openElement]
  split
  · exact found
  · rw [Std.TreeMap.getElem?_insertIfNew, if_neg, found]
    rintro ⟨here, new⟩
    rw [Std.LawfulEqCmp.compare_eq_iff_eq] at here
    exact new (here ▸ known)

/-- What is pending after some events belongs to the elements that are open, and lies inside of the output. -/
structure Flat.Valid (t : Target) (es : List Event) (l : Flat) : Prop where
  /-- an entry points at the start tag of the open element whose directives it holds -/
  points : ∀ (k : UInt32) (p : Pending), l.pending[k]? = some p →
    p.offset < l.output.length ∧
      ∃ o : Opening t, o.OpenAfter es ∧ UInt32.ofInt o.depth = k ∧ o.entry = p ∧ l.output[p.offset]? = some o.written
  /-- no open element is without its entry -/
  complete : ∀ o : Opening t, o.OpenAfter es → l.pending[UInt32.ofInt o.depth]? = some o.entry

theorem Flat.Open.valid (h : l.Open es os) : l.Valid t es where
  points k p found := by
    obtain ⟨o, mem, depth, rfl⟩ := (h.pending_iff k p).1 found
    obtain ⟨inside, points⟩ := h.points mem
    exact ⟨inside, o, (h.mem_iff o).1 mem, depth, rfl, points⟩
  complete o isOpen := (h.pending_iff _ _).2 ⟨o, (h.mem_iff o).2 isOpen, rfl, rfl⟩

/-- The output is the events of the other compiler, and the table holds what its carriers hold. -/
structure Flat.Shows (l : Flat) (s : State) : Prop where
  output : l.output = s.events
  pending_iff : ∀ p, (∃ k : UInt32, l.pending[k]? = some p) ↔ p ∈ pendingOf s.carriers

theorem Alike.shows (h : Alike es s l os) : l.Shows s where
  output := h.output
  pending_iff p := by
    rw [← h.carried.entries, List.mem_map]
    constructor
    · rintro ⟨k, found⟩
      obtain ⟨o, mem, -, entry⟩ := (h.stack.pending_iff k p).1 found
      exact ⟨o, mem, entry⟩
    · rintro ⟨o, mem, entry⟩
      exact ⟨_, (h.stack.pending_iff _ p).2 ⟨o, mem, rfl, entry⟩⟩

/-- **Pending directives stay with their element.** From any fewer than 2 ^ 32 events, nested or not, the compiler with
one output makes the template that the compiler makes. After each of them its table holds what the carriers hold, and
its entries are valid. A start tag finds its depth free and leaves every entry as it is. An end tag that finds an entry
folds the output from its offset on: that slice begins with the start tag of the element and ends with the end tag. -/
theorem pending_valid (t : Target) (es : List Event) (short : es.length < UInt32.size) :
    Flat.template t es = template t es ∧
      ∀ before s, before <+: es → run t .initial before 0 = .ok s →
        ∃ l, Flat.read t before = .ok l ∧ l.Shows s ∧ l.Valid t before ∧
          ∀ e l', before ++ [e] <+: es → l.step t (e, before.length) = .ok l' →
            (e.isStart = true →
              l.pending[l.depth]? = none ∧ ∀ (k : UInt32) (p : Pending), l.pending[k]? = some p → l'.pending[k]? = some p) ∧
            (e.isEnd = true → ∀ p, l.pending[l.depth - 1]? = some p →
              ∃ o : Opening t, o.OpenAfter before ∧ o.entry = p ∧
                ∃ inner, (l.output ++ [e]).drop p.offset = o.written :: (inner ++ [e]) ∧
                  l'.output = o.state.output ++ [.sub o.position p.directives (o.written :: (inner ++ [e]))]) := by
  refine ⟨Flat.template_eq t es short, fun before s upTo read => ?_⟩
  have short : before.length < UInt32.size := Nat.lt_of_le_of_lt upTo.length_le short
  obtain ⟨l, reached, os, same⟩ := alike_of_run short read
  have stack := same.stack
  refine ⟨l, reached, same.shows, stack.valid, fun e l' _ next =>
    ⟨fun start => ⟨stack.pending_depth short, fun k p found => ?_⟩, fun ends p found => ?_⟩⟩
  · obtain ⟨q, name, as, rfl⟩ := Event.eq_startTag start
    rw [Flat.step_startTag] at next
    cases read : readingsOf t before.length q as with
    | error x => rw [read] at next; cases next
    | ok rs =>
      rw [read] at next
      cases next
      exact Flat.pending_openElement found _ rs
  · obtain ⟨q, name, rfl⟩ := Event.eq_endTag ends
    obtain ⟨o, outer, rfl, closes, rfl⟩ := stack.innermost short found
    obtain ⟨inner, slice, -⟩ := stack.slice (.endTag q name)
    cases next
    refine ⟨o, (stack.mem_iff o).1 List.mem_cons_self, rfl, inner, slice, ?_⟩
    rw [stack.closeElement_eq short closes, slice]

/-- A stray end tag, and an element that is opened at the depth below zero with another one inside of it. -/
def strayEvents : List Event :=
  let directive (base value : Text) : Attribute := ⟨⟨Template.directiveNamespace, "py", base⟩, [.literal value]⟩
  [.endTag ⟨1, 0⟩ (.plain "x"), .startTag ⟨2, 0⟩ (.plain "b") [directive "if" "u"], .text ⟨2, 9⟩ "s",
    .startTag ⟨3, 0⟩ (.plain "i") [], .startTag ⟨4, 0⟩ (.plain "c") [directive "strip" ""],
    .endTag ⟨4, 9⟩ (.plain "c"), .endTag ⟨5, 0⟩ (.plain "i")]

/-- The entry of the outer element is at the last word. It survives the fold of the inner one, until its end tag. -/
theorem pending_valid_stray :
    let t : Target := ⟨0, "t.xml", .empty⟩
    let e : Event := .endTag ⟨6, 0⟩ (.plain "b")
    (strayEvents ++ [e]).length < UInt32.size ∧
      ∃ l l', Flat.read t strayEvents = .ok l ∧ l.step t (e, strayEvents.length) = .ok l' ∧ l.Valid t strayEvents ∧
        l.pending[(4294967295 : UInt32)]? = some ⟨[.condition ⟨"u"⟩], 1⟩ ∧
        (∃ o : Opening t, o.OpenAfter strayEvents ∧ ∃ inner, (l.output ++ [e]).drop 1 = o.written :: (inner ++ [e])) ∧
        l'.output =
          [.endTag ⟨1, 0⟩ (.plain "x"),
            .sub ⟨2, 0⟩ [.condition ⟨"u"⟩]
              [.startTag ⟨2, 0⟩ (.plain "b") [], .text ⟨2, 9⟩ "s", .startTag ⟨3, 0⟩ (.plain "i") [],
                .sub ⟨4, 0⟩ [.strip none] [.startTag ⟨4, 0⟩ (.plain "c") [], .endTag ⟨4, 9⟩ (.plain "c")],
                .endTag ⟨5, 0⟩ (.plain "i"), e]] := by
  intro t e
  have short : (strayEvents ++ [e]).length < UInt32.size := by decide
  obtain ⟨-, after⟩ := pending_valid t (strayEvents ++ [e]) short
  obtain ⟨l, reached, -, valid, next⟩ := after strayEvents _ (List.prefix_append _ _) rfl
  cases reached
  obtain ⟨-, ends⟩ := next e _ (List.prefix_refl _) rfl
  obtain ⟨o, isOpen, -, inner, slice, -⟩ := ends rfl ⟨[.condition ⟨"u"⟩], 1⟩ rfl
  exact ⟨short, _, _, rfl, rfl, valid, rfl, ⟨o, isOpen, inner, slice⟩, rfl⟩

end Compile

end Stencil
