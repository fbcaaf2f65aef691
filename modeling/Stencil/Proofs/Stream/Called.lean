import Stencil.Proofs.Stream.Embedded

/-!
# Expanding a call inside of a rendering

The calls that are read at the moment are read one inside of the other (`Calls`), and the elements that are being expanded
form a stack of such streams (`Stack`). There, what comes out goes through the filters of the template around, which let all of
it pass (`Sieve`), and below the stack is the rest of the rendering (`Site`).

A step here is a step there (`Stack.step`), and so are all runs: up to the end of the call (`run_inside`), which is there the
place behind it (`completes_inside`), or up to a failure with the same message (`fails_inside`).
-/

namespace Stencil

/-- An event whose expressions have been computed, with no names but the given ones left to look up. -/
def Event.Computed (spared : Event → Prop) (bound : List Text) : Event → Prop
  | .text .. => True
  | .sub p ds es => (Event.sub p ds es).ClosedIn spared bound
  | e => spared e

variable {w : Embedding} {l l₀ : Nesting} {n m k : Nat} {c s : Store} {u u' v v' : Stream} {a b : Advance}
  {R R' : Nat → Nesting → Stream → Stream → Prop} {Y : Nesting → Event → Prop} {D D' : Stream → Stream → Prop}

namespace Advance

theorem Alike.imp (h : Alike w l₀ n R Y D a b) (streams : ∀ {m l u u'}, R m l u u' → R' m l u u')
    (ends : ∀ {u u'}, D u u' → D' u u') : Alike w l₀ n R' Y D' a b := by
  cases h with
  | yield holds more event related => exact .yield holds more event (streams related)
  | skip holds more related => exact .skip holds more (streams related)
  | done holds more related => exact .done holds more (ends related)
  | fail same => exact .fail same

end Advance

namespace Stream

/-! ## Calls that are read -/

/-- What is related stays so when more streams are made. -/
def Grows (B : Nat → Nesting → Stream → Stream → Prop) : Prop := ∀ n m l u u', n ≤ m → B n l u u' → B m l u u'

/-- Calls that are read one inside of the other, and below them what `B` relates. -/
inductive Calls (w : Embedding) (B : Nat → Nesting → Stream → Stream → Prop) (n : Nat) : Nesting → Stream → Stream → Prop
  | bottom {l : Nesting} {u u' : Stream} (below : B n l u u') : Calls w B n l u u'
  | pending {l : Nesting} {id : Nat} {u u' : Stream} (admits : l.Admits id) (known : id < n) (below : Calls w B n l u u') :
      Calls w B n l (.append (.shared id) u) (.append (.shared (w.number id)) u')
  | begun {l : Nesting} {id made : Nat} {frame : Frame} {rest : List Event} {u u' : Stream} (below : Calls w B n l u u') :
      Calls w B n (.call id made frame rest :: l) (.append (.shared id) u) (.append (.shared (w.number id)) u')

variable {B : Nat → Nesting → Stream → Stream → Prop}

theorem Calls.mono (grows : Grows B) (h : Calls w B n l u u') (more : n ≤ m) : Calls w B m l u u' := by
  induction h with
  | bottom below => exact .bottom (grows _ _ _ _ _ more below)
  | pending admits known _ ih => exact .pending admits (Nat.lt_of_lt_of_le known more) ih
  | begun _ ih => exact .begun ih

theorem step_shared_event {id : Nat} {e : Event} {r : Replay} {x : Context}
    (next : (s.replay id).next s.context = (some e, r, x)) :
    step k (.append (.shared id) u) s = .yield e (.append (.shared id) u) { s.setReplay id r with context := x } := by
  simp only [step, stepShared, next, Advance.map]

/-- A stream that has been read is left, which changes nothing any more. -/
theorem step_shared_end {id : Nat} {x : Context} (next : (s.replay id).next s.context = (none, .finished, x)) :
    step k (.append (.shared id) u) s = .skip u { s.setReplay id .finished with context := x } := by
  simp only [step, stepShared, next, close]

/-- A step of the innermost call. -/
theorem Calls.step (grows : Grows B) (h : Calls w B n l u u') (holds : w.Holds l c s) (same : n = c.replays.size) :
    B n l u u' ∨ Advance.Alike w l₀ n (Calls w B) (fun l e => e.ClosedIn w.spared l.bound) (fun _ _ => False)
      (step k u c) (step k u' s) := by
  subst same
  -- reading makes no streams
  have still (id : Nat) (r : Replay) : c.replays.size ≤ (c.setReplay id r).replays.size :=
    Nat.le_of_eq (Embedding.size_setReplay c id r).symm
  cases h with
  | bottom below => exact .inl below
  | @pending _ id u u' admits known below =>
    right
    have unread := holds.begun.unread admits
    have idle := holds.idle id known unread
    generalize here : c.replay id = r, there : s.replay (w.number id) = r' at idle
    cases idle with
    | finished =>
      have next := step_shared_end (k := k) (u := u) (s := c) (x := c.context) (by rw [here]; rfl)
      have next' := step_shared_end (k := k) (u := u') (s := s) (x := s.context) (by rw [there]; rfl)
      rw [next, next']
      exact .skip (holds.setReplay known unread .finished) (still _ _) (below.mono grows (still _ _))
    | @waiting frame es made closed =>
      cases es with
      | nil =>
        have next := step_shared_end (k := k) (u := u) (s := c) (x := c.context)
          (by rw [here, Replay.next, Context.releaseFrom_push])
        have next' := step_shared_end (k := k) (u := u') (s := s) (x := s.context)
          (by rw [there, Replay.next, Context.releaseFrom_push])
        rw [next, next']
        exact .skip (holds.setReplay known unread .finished) (still _ _) (below.mono grows (still _ _))
      | cons e es =>
        rw [step_shared_event (by rw [here]; rfl), step_shared_event (by rw [there]; rfl)]
        exact .yield (holds.begin admits known es made closed.2) (still _ _) closed.1 (.begun (below.mono grows (still _ _)))
  | @begun l id made frame rest u u' below =>
    right
    have begun := holds.begun
    cases begun with
    | call _ _ _ closed here there =>
      cases rest with
      | nil =>
        rw [step_shared_end (by rw [here]; rfl), step_shared_end (by rw [there]; rfl)]
        exact .skip holds.finish (still _ _) (below.mono grows (still _ _))
      | cons e rest =>
        rw [step_shared_event (by rw [here]; rfl), step_shared_event (by rw [there]; rfl)]
        exact .yield holds.advance (still _ _) closed.1 (.begun (below.mono grows (still _ _)))

/-! ## Their expressions computed -/

/-- The expressions of calls and of what is below them are computed. -/
def EvaluatedCalls (w : Embedding) (B : Nat → Nesting → Stream → Stream → Prop) (n : Nat) (l : Nesting)
    (u u' : Stream) : Prop :=
  ∃ v v', u = .evaluated v ∧ u' = .evaluated v' ∧ Calls w B n l v v'

theorem evaluateEvent_alike (grows : Grows B) {e : Event} (event : e.ClosedIn w.spared l.bound)
    (holds : w.Holds l c s) (more : n ≤ c.replays.size) (calls : Calls w B c.replays.size l u u') :
    Advance.Alike w l₀ n (EvaluatedCalls w B) (fun l e => e.Computed w.spared l.bound) D
      (evaluateEvent k e u c) (evaluateEvent k e u' s) := by
  have handed (computed : e.Computed w.spared l.bound) : Advance.Alike w l₀ n (EvaluatedCalls w B)
      (fun l e => e.Computed w.spared l.bound) D (.yield e (.evaluated u) c) (.yield e (.evaluated u') s) :=
    .yield holds more computed ⟨u, u', rfl, rfl, calls⟩
  cases e with
  | startTag p name as =>
    have values := Attributes.eval_mirrored (w := w) (l := l) k c.replays.size event.2 c s holds (Nat.le_refl _)
    simp only [evaluateEvent]
    generalize Attributes.eval k as c = x, Attributes.eval k as s = y at values
    cases values with
    | error why => exact .fail rfl
    | ok store value =>
      obtain ⟨later, rfl⟩ := value
      exact .yield store (Nat.le_trans more later) (w.spares event.1) ⟨u, u', rfl, rfl, calls.mono grows later⟩
  | expression p x =>
    have value := x.eval_mirrored (w := w) (l := l) k c.replays.size event c s holds (Nat.le_refl _)
    simp only [evaluateEvent]
    generalize x.eval k c = y, x.eval k s = z at value
    cases value with
    | error why => exact .fail rfl
    | @ok v _ c s store value =>
      obtain ⟨later, rfl, made⟩ := value
      have calls := calls.mono grows later
      have more := Nat.le_trans more later
      have written : Advance.Alike w l₀ n (EvaluatedCalls w B) (fun l e => e.Computed w.spared l.bound) D
          (if v.isNull then .skip (.evaluated u) c else .yield (.text p v.toText) (.evaluated u) c)
          (if (v.rename w.number).isNull then .skip (.evaluated u') s
            else .yield (.text p (v.rename w.number).toText) (.evaluated u') s) := by
        rw [Value.isNull_rename, Value.toText_rename]
        split
        · exact .skip store more ⟨u, u', rfl, rfl, calls⟩
        · exact .yield store more trivial ⟨u, u', rfl, rfl, calls⟩
      cases v with
      | stream id => exact .skip store more ⟨_, _, rfl, rfl, .pending made.1 made.2 calls⟩
      | _ => exact written
  | text => exact handed trivial
  | _ => exact handed event

theorem evaluated_alike (grows : Grows B) (inert : ∀ {u u'}, D u u' → u.Inert ∧ u'.Inert)
    (ends : ∀ {u u'}, D u u' → D' .empty .empty)
    (h : Advance.Alike w l₀ n (Calls w B) (fun l e => e.ClosedIn w.spared l.bound) D (step k u c) (step k u' s)) :
    Advance.Alike w l₀ n (EvaluatedCalls w B) (fun l e => e.Computed w.spared l.bound) D'
      (step k (.evaluated u) c) (step k (.evaluated u') s) := by
  simp only [step]
  generalize step k u c = a, step k u' s = b at h
  cases h with
  | yield holds more event calls => exact evaluateEvent_alike grows event holds more calls
  | skip holds more calls => exact .skip holds more ⟨_, _, rfl, rfl, calls⟩
  | done holds more related =>
    obtain ⟨here, there⟩ := inert related
    simp only [here _, there _]
    exact .done holds more (ends related)
  | fail same => exact .fail same

end Stream

/-! ## The filters around -/

/-- A filter that replaces elements, with its state. -/
inductive Sieve where
  | substituted (path : Path) (body : BodyId) (openElements : List Event)
  | included (filename : Text) (prefixes : List Text)

namespace Sieve

/-- The filter at its beginning. -/
def filter : Sieve → Filter
  | substituted path body _ => .substitute path body
  | included filename _ => .inclusion filename

def fresh : Sieve → Sieve
  | substituted path body _ => substituted path body []
  | included filename _ => included filename []

/-- A stream after the filter. -/
def around : Sieve → Stream → Stream
  | substituted path body openElements => .substituted path body openElements
  | included filename prefixes => .included filename prefixes

/-- A step of the filter, given one of the stream. -/
def advance : Sieve → Advance → Advance
  | substituted path body openElements => Stream.stepSubstituted path body openElements
  | included filename prefixes => Stream.stepIncluded filename prefixes

/-- The filter hands the event on, whatever has come before and whatever attributes an element has. -/
def Passes : Sieve → Event → Prop
  | substituted path _ _, .startTag p name _ => ∀ as outer, path.accepts (.startTag p name as :: outer) = false
  | included _ _, .startTag _ name _ => name.same Stream.includeName = false
  | included _ _, .startNamespace _ _ uri => (uri == Template.includeNamespace) = false
  | included _ prefixes, .endNamespace _ pre => prefixes.contains pre = false
  | _, _ => True

/-- The filter when an event has passed it. -/
def after (e : Event) : Sieve → Sieve
  | substituted path body openElements =>
    substituted path body (if e.isStart then e :: openElements else if e.isEnd then openElements.tail else openElements)
  | included filename prefixes => included filename prefixes

def Sparing (spared : Event → Prop) (f : Sieve) : Prop := ∀ e, spared e → f.Passes e

variable {spared : Event → Prop} {bound : List Text} {f : Sieve} {fs : List Sieve} {e : Event} {x : Store}

theorem step_around (f : Sieve) (u : Stream) (s : Store) : Stream.step k (f.around u) s = f.advance (Stream.step k u s) := by
  cases f <;> rfl

theorem apply_filter (f : Sieve) (u : Stream) : f.filter.apply u = f.fresh.around u := by cases f <;> rfl

theorem advance_yield (passes : f.Passes e) : f.advance (.yield e u x) = .yield e ((f.after e).around u) x := by
  cases f with
  | substituted path body openElements =>
    cases e with
    | startTag p name as =>
      simp only [Passes] at passes
      simp [advance, Stream.stepSubstituted, after, around, Event.isStart, passes as openElements]
    | _ => simp [advance, Stream.stepSubstituted, after, around, Event.isStart, Event.isEnd]
  | included filename prefixes =>
    cases e with
    | startTag | startNamespace | endNamespace =>
      simp only [Passes] at passes
      simp only [advance, Stream.stepIncluded, after, around, passes, Bool.false_eq_true, if_false]
    | _ => rfl

theorem advance_skip (f : Sieve) : f.advance (.skip u x) = .skip (f.around u) x := by cases f <;> rfl

theorem advance_done (f : Sieve) : f.advance (.done u x) = .done (f.around u) x := by cases f <;> rfl

theorem advance_fail (f : Sieve) (why : Stop) : f.advance (.fail why u x) = .fail why (f.around u) x := by cases f <;> rfl

theorem Sparing.after (h : f.Sparing spared) (e : Event) : (f.after e).Sparing spared := by
  intro e' he'
  have passes := h e' he'
  cases f <;> cases e' <;> exact passes

theorem Sparing.fresh (h : f.Sparing spared) : f.fresh.Sparing spared := by
  intro e he
  have passes := h e he
  cases f <;> cases e <;> first | exact passes | rfl

theorem Sparing.passes (h : f.Sparing spared) (computed : e.Computed spared bound) : f.Passes e := by
  cases e with
  | text | sub => cases f <;> trivial
  | _ => exact h _ computed

/-! ### Several filters -/

/-- A stream after filters, the first one applied first. -/
def aroundAll (fs : List Sieve) (u : Stream) : Stream := fs.foldl (fun u f => f.around u) u

theorem aroundAll_yield (sparing : ∀ f ∈ fs, f.Sparing spared) (computed : e.Computed spared bound)
    (first : Stream.step k u s = .yield e v x) :
    Stream.step k (aroundAll fs u) s = .yield e (aroundAll (fs.map (Sieve.after e)) v) x := by
  induction fs generalizing u v with
  | nil => exact first
  | cons f fs ih =>
    obtain ⟨here, others⟩ := List.forall_mem_cons.1 sparing
    exact ih others (by rw [step_around, first, advance_yield (here.passes computed)])

theorem aroundAll_skip (fs : List Sieve) (first : Stream.step k u s = .skip v x) :
    Stream.step k (aroundAll fs u) s = .skip (aroundAll fs v) x := by
  induction fs generalizing u v with
  | nil => exact first
  | cons f fs ih => exact ih (by rw [step_around, first, advance_skip])

theorem aroundAll_done (fs : List Sieve) (first : Stream.step k u s = .done v x) :
    Stream.step k (aroundAll fs u) s = .done (aroundAll fs v) x := by
  induction fs generalizing u v with
  | nil => exact first
  | cons f fs ih => exact ih (by rw [step_around, first, advance_done])

theorem aroundAll_fail (fs : List Sieve) {why : Stop} (first : Stream.step k u s = .fail why v x) :
    Stream.step k (aroundAll fs u) s = .fail why (aroundAll fs v) x := by
  induction fs generalizing u v with
  | nil => exact first
  | cons f fs ih => exact ih (by rw [step_around, first, advance_fail])

theorem close_aroundAll (fs : List Sieve) (u : Stream) (s : Store) : (aroundAll fs u).close s = u.close s := by
  induction fs generalizing u with
  | nil => rfl
  | cons f fs ih => exact (ih (f.around u)).trans (by cases f <;> rfl)

/-- What filters make of a stream at their beginning. -/
theorem filtered_evaluate (fs : List Sieve) (u : Stream) :
    u.filtered (.evaluate :: fs.map filter) = aroundAll (fs.map fresh) (.evaluated u) := by
  have all (v : Stream) : v.filtered (fs.map filter) = aroundAll (fs.map fresh) v := by
    induction fs generalizing v with
    | nil => rfl
    | cons f fs ih =>
      change (f.filter.apply v).filtered (fs.map filter) = aroundAll (fs.map fresh) (f.fresh.around v)
      rw [apply_filter, ih]
  exact all (.evaluated u)

end Sieve

/-- A site in a rendering where expressions are computed: the filters behind it, the rest of the stream whose expressions are
computed there, and inside of an element with directives what comes after the element. -/
structure Site where
  filters : List Sieve
  below : Stream
  rest? : Option Stream

namespace Site

/-- The site with a stream whose expressions are computed next. -/
def around (p : Site) (u : Stream) : Stream :=
  match p.rest? with
  | none => Sieve.aroundAll p.filters (.evaluated u)
  | some rest => .append (Sieve.aroundAll p.filters (.evaluated u)) rest

/-- The site when events have passed its filters. -/
def after (p : Site) (seen : List Event) : Site :=
  { p with filters := p.filters.map fun f => seen.foldl (fun f e => f.after e) f }

def Sparing (spared : Event → Prop) (p : Site) : Prop := ∀ f ∈ p.filters, f.Sparing spared

variable {spared : Event → Prop} {bound : List Text} {p : Site} {e : Event}

theorem after_nil (p : Site) : p.after [] = p := by simp [after]

theorem after_concat (p : Site) (seen : List Event) (e : Event) :
    p.after (seen ++ [e]) = { p with filters := (p.after seen).filters.map (Sieve.after e) } := by
  simp [after, List.foldl_append]

theorem Sparing.after (h : p.Sparing spared) (seen : List Event) : (p.after seen).Sparing spared := by
  have all (f : Sieve) (hf : f.Sparing spared) : (seen.foldl (fun f e => f.after e) f).Sparing spared := by
    induction seen generalizing f with
    | nil => exact hf
    | cons e seen ih => exact ih _ (hf.after e)
  intro f hf
  obtain ⟨g, hg, rfl⟩ := List.mem_map.1 hf
  exact all g (h g hg)

theorem step_yield (sparing : p.Sparing spared) (computed : e.Computed spared bound) {t : Store}
    (first : Stream.step k (.evaluated u) s = .yield e (.evaluated v) t) :
    Stream.step k (p.around u) s = .yield e (Site.around { p with filters := p.filters.map (Sieve.after e) } v) t := by
  have passed := Sieve.aroundAll_yield sparing computed first
  cases h : p.rest? with
  | none => simpa only [around, h] using passed
  | some rest => simp only [around, h, Stream.step, passed, Advance.map]

theorem step_skip (p : Site) {t : Store} (first : Stream.step k (.evaluated u) s = .skip (.evaluated v) t) :
    Stream.step k (p.around u) s = .skip (p.around v) t := by
  have passed := Sieve.aroundAll_skip p.filters first
  cases h : p.rest? with
  | none => simpa only [around, h] using passed
  | some rest => simp only [around, h, Stream.step, passed, Advance.map]

theorem step_fail (p : Site) {why : Stop} {t : Store} (first : Stream.step k (.evaluated u) s = .fail why v t) :
    ∃ v', Stream.step k (p.around u) s = .fail why v' t := by
  have passed := Sieve.aroundAll_fail p.filters first
  cases h : p.rest? with
  | none => exact ⟨_, by simpa only [around, h] using passed⟩
  | some rest => exact ⟨_, by simp only [around, h, Stream.step, passed, Advance.map]; rfl⟩

end Site

namespace Stream

/-! ## Elements that are expanded -/

theorem Element.grows (l₀ : Nesting) : Grows fun n => Element w n l₀ := by
  intro n m l u u' more h
  have stock {vs : List Value} (made : ∀ v ∈ vs, v.From (w.stock l₀ n)) : ∀ v ∈ vs, v.From (w.stock l₀ m) :=
    fun v hv => (made v hv).mono (Embedding.stock_le more)
  cases h with
  | raw source => exact .raw source
  | directed order directives held source => exact .directed order directives held source
  | looped closed source => exact .looped closed source
  | loop closed source => exact .loop closed source
  | gathering made closed source => exact .gathering (stock made) closed source
  | looping made closed inert => exact .looping (stock made) closed inert
  | iterating made closed bound left inert => exact .iterating (stock made) closed bound left inert

/-- The calls have been read: there, what is below them comes next. -/
def AtBottom (below : Stream) (_ : Nat) (l : Nesting) (u u' : Stream) : Prop := l = [] ∧ u = .empty ∧ u' = below

theorem AtBottom.grows (below : Stream) : Grows (AtBottom below) := fun _ _ _ _ _ _ h => h

/-- Elements that are expanded one inside of the other, and below them the call. There it is at a site. -/
inductive Stack (w : Embedding) (p : Site) (n : Nat) : Nesting → Stream → Stream → Prop
  | base {l : Nesting} {u u' : Stream} (seen : List Event) (calls : Calls w (AtBottom p.below) n l u u') :
      Stack w p n l (.evaluated u) ((p.after seen).around u')
  | element {l l₀ : Nesting} {u u' v v' : Stream} (fs : List Sieve) (sparing : ∀ f ∈ fs, f.Sparing w.spared)
      (calls : Calls w (fun n => Element w n l₀) n l u u') (below : Stack w p n l₀ v v') :
      Stack w p n l (.append (.evaluated u) v) (.append (Sieve.aroundAll fs (.evaluated u')) v')

variable {p : Site}

theorem Stack.mono (h : Stack w p n l u u') (more : n ≤ m) : Stack w p m l u u' := by
  induction h with
  | base seen calls => exact .base seen (calls.mono (AtBottom.grows _) more)
  | element fs sparing calls _ ih => exact .element fs sparing (calls.mono (Element.grows _) more) ih

/-- The call has come to its end. -/
def AtEnd (p : Site) (l : Nesting) (u u' : Stream) : Prop :=
  l = [] ∧ u = .evaluated .empty ∧ ∃ seen, u' = (p.after seen).around p.below

/-- A step here is a step there, up to the end of the call. -/
theorem Stack.step (h : Stack w p n l u u') (holds : w.Holds l c s) (same : n = c.replays.size)
    (sparing : p.Sparing w.spared) :
    AtEnd p l u u' ∨ Advance.Alike w [] n (Stack w p) (fun l e => e.Computed w.spared l.bound) (fun _ _ => False)
      (step k u c) (step k u' s) := by
  cases h with
  | @base l u u' seen calls =>
    have grows := AtBottom.grows p.below
    have next : AtBottom p.below n l u u' ∨ Advance.Alike w [] n _ _ _ (Stream.step k u c) (Stream.step k u' s) :=
      calls.step grows holds same
    rcases next with ⟨rfl, rfl, rfl⟩ | next
    · exact .inl ⟨rfl, rfl, seen, rfl⟩
    right
    have next : Advance.Alike w [] n (EvaluatedCalls w (AtBottom p.below)) (fun l e => e.Computed w.spared l.bound)
        (fun _ _ => False) (Stream.step k (.evaluated u) c) (Stream.step k (.evaluated u') s) :=
      evaluated_alike grows False.elim False.elim next
    generalize here : Stream.step k (.evaluated u) c = a, there : Stream.step k (.evaluated u') s = b at next
    cases next with
    | @yield _ e _ _ _ _ holds more event streams =>
      obtain ⟨v, v', rfl, rfl, calls⟩ := streams
      rw [Site.step_yield (sparing.after seen) event there]
      have passed := Stack.base (p := p) (seen ++ [e]) calls
      rw [Site.after_concat] at passed
      exact .yield holds more event passed
    | skip holds more streams =>
      obtain ⟨v, v', rfl, rfl, calls⟩ := streams
      rw [(p.after seen).step_skip there]
      exact .skip holds more (.base seen calls)
    | done _ _ ends => exact ends.elim
    | fail same =>
      obtain ⟨v, fails⟩ := (p.after seen).step_fail there
      rw [fails]
      exact .fail same
  | @element l l₀ u u' v v' fs spares calls below =>
    right
    have next : Advance.Alike w l₀ n (Calls w fun n => Element w n l₀) (fun l e => e.ClosedIn w.spared l.bound)
        (fun u u' => u.Inert ∧ u'.Inert) (Stream.step k u c) (Stream.step k u' s) := by
      rcases calls.step (Element.grows l₀) holds same with element | next
      · rw [same]
        exact ((same ▸ element).step holds rfl).imp (fun below => .bottom below) id
      · exact next.imp id False.elim
    have next : Advance.Alike w l₀ n (EvaluatedCalls w fun n => Element w n l₀) (fun l e => e.Computed w.spared l.bound)
        (fun u u' => u = .empty ∧ u' = .empty) (Stream.step k (.evaluated u) c) (Stream.step k (.evaluated u') s) :=
      evaluated_alike (Element.grows l₀) id (fun _ => ⟨rfl, rfl⟩) next
    generalize here : Stream.step k (.evaluated u) c = a, there : Stream.step k (.evaluated u') s = b at next
    rw [Stream.step, Stream.step, here]
    cases next with
    | yield holds more event streams =>
      obtain ⟨u, u', rfl, rfl, calls⟩ := streams
      rw [Sieve.aroundAll_yield spares event there]
      refine .yield holds more event (.element _ ?_ calls (below.mono more))
      exact List.forall_mem_map.2 fun f hf => (spares f hf).after _
    | skip holds more streams =>
      obtain ⟨u, u', rfl, rfl, calls⟩ := streams
      rw [Sieve.aroundAll_skip fs there]
      exact .skip holds more (.element fs spares calls (below.mono more))
    | done holds more ends =>
      obtain ⟨rfl, rfl⟩ := ends
      rw [Sieve.aroundAll_done fs there]
      simp only [Sieve.close_aroundAll]
      exact .skip holds more (below.mono more)
    | fail same =>
      rw [Sieve.aroundAll_fail fs there]
      exact .fail same

end Stream

/-! ## The call and its surroundings -/

namespace Template

/-- A template that does nothing but compute expressions. -/
def bare : Template := ⟨0, [], [], [.evaluate], [], []⟩

/-- What goes through the template has its expressions computed first, and then passes its other filters. -/
def Sparing (spared : Event → Prop) (t : Template) : Prop :=
  ∃ fs : List Sieve, t.expansionFilters = .evaluate :: fs.map Sieve.filter ∧ ∀ f ∈ fs, f.Sparing spared

end Template

namespace Stream

/-- The directives of what comes out of a call are expanded by the template there. -/
inductive Expanding (w : Embedding) (p : Site) (t : Template) (n : Nat) (l : Nesting) : Stream → Stream → Prop
  | intro {u u' : Stream} (at_ at_' : Position) (stack : Stack w p n l u u') :
      Expanding w p t n l (.expanded .bare at_ u) (.expanded t at_' u')

variable {p : Site} {t : Template}

/-- An element with directives, put onto the stack. -/
theorem Stack.push (h : Stack w p n l u u') {q : Position} {ds : List Directive} {es : List Event}
    (closed : (Event.sub q ds es).ClosedIn w.spared l.bound) {fs : List Sieve} (sparing : ∀ f ∈ fs, f.Sparing w.spared) :
    Stack w p n l (.append (.evaluated (.directed ds.reverse [] (.ofEvents es))) u)
      (.append (Sieve.aroundAll fs (.evaluated (.directed ds.reverse [] (.ofEvents es)))) u') := by
  obtain ⟨⟨sorted, directives⟩, events⟩ := closed
  have inside : Directive.targets ds ++ l.bound ⊆ Directive.targets ds.reverse ++ l.bound := by
    intro name
    simp [Directive.targets]
  refine .element fs sparing (.bottom (.directed (List.pairwise_reverse.2 sorted) (fun d hd => ?_) (by simp)
    (.events (Event.AllClosedIn.mono inside es events)))) h
  exact (directives d (List.mem_reverse.1 hd)).mono (List.Subset.refl _) inside

theorem Expanding.step (h : Expanding w p t n l u u') (filtering : t.Sparing w.spared) (holds : w.Holds l c s)
    (same : n = c.replays.size) (sparing : p.Sparing w.spared) :
    (l = [] ∧ (∃ q, u = .expanded .bare q (.evaluated .empty)) ∧
      ∃ q seen, u' = .expanded t q ((p.after seen).around p.below)) ∨
      Advance.Alike w [] n (Expanding w p t) (fun _ _ => True) (fun _ _ => False) (step k u c) (step k u' s) := by
  obtain ⟨fs, filters, spares⟩ := filtering
  cases h with
  | @intro u u' q q' stack =>
    rcases stack.step (k := k) holds same sparing with ⟨bottom, rfl, seen, rfl⟩ | next
    · exact .inl ⟨bottom, ⟨q, rfl⟩, q', seen, rfl⟩
    right
    rw [Stream.step, Stream.step]
    generalize Stream.step k u c = a, Stream.step k u' s = b at next
    cases next with
    | @yield l e _ _ _ _ holds more event streams =>
      cases e with
      | sub at_ ds es =>
        have fresh : ∀ f ∈ fs.map Sieve.fresh, f.Sparing w.spared := List.forall_mem_map.2 fun f hf => (spares f hf).fresh
        have pushed := streams.push (q := at_) event fresh
        simp only [stepExpanded, filters, Sieve.filtered_evaluate]
        exact .skip holds more (.intro _ _ pushed)
      | _ => exact .yield holds more trivial (.intro _ _ streams)
    | skip holds more streams => exact .skip holds more (.intro _ _ streams)
    | done _ _ ends => exact ends.elim
    | fail same => exact .fail (by rw [Stop.bare?_locate, Stop.bare?_locate, same])

/-- **All steps of a call are made there too**, with the same events. -/
theorem Expanding.run (h : Expanding w p t c.replays.size l u u') (filtering : t.Sparing w.spared) (holds : w.Holds l c s)
    (sparing : p.Sparing w.spared) {es : List Event} {d : Store} (r : Run k u c es v d) :
    ∃ l' v' x, Run k u' s es v' x ∧ w.Holds l' d x ∧ Expanding w p t d.replays.size l' v v' := by
  induction r generalizing l u' s with
  | refl => exact ⟨l, u', s, .refl _ _, holds, h⟩
  | skip first _ ih =>
    rcases h.step (k := k) filtering holds rfl sparing with ⟨-, ⟨q, rfl⟩, -⟩ | next
    · cases first
    rw [first] at next
    generalize there : Stream.step k u' s = b at next
    cases next with
    | skip holds _ streams =>
      obtain ⟨l', v', x, run, holds, streams⟩ := ih streams holds
      exact ⟨l', v', x, .skip there run, holds, streams⟩
  | yield first _ ih =>
    rcases h.step (k := k) filtering holds rfl sparing with ⟨-, ⟨q, rfl⟩, -⟩ | next
    · cases first
    rw [first] at next
    generalize there : Stream.step k u' s = b at next
    cases next with
    | yield holds _ _ streams =>
      obtain ⟨l', v', x, run, holds, streams⟩ := ih streams holds
      exact ⟨l', v', x, .yield there run, holds, streams⟩

/-- When the call has come to its end, what is below it comes next there, and the context is as it was. -/
theorem Expanding.ends (h : Expanding w p t c.replays.size l u u') (filtering : t.Sparing w.spared) (holds : w.Holds l c s)
    (sparing : p.Sparing w.spared) {es : List Event} {d : Store} (r : Completes k u c es none v d) :
    ∃ q seen x, Run k u' s es (.expanded t q ((p.after seen).around p.below)) x ∧ x.context = w.outer := by
  obtain ⟨v, d', run, last⟩ := r
  obtain ⟨l', v', x, run, holds, streams⟩ := h.run filtering holds sparing run
  rcases streams.step (k := k) filtering holds rfl sparing with ⟨rfl, -, q, seen, rfl⟩ | next
  · exact ⟨q, seen, x, run, holds.there⟩
  · rw [last] at next
    generalize Stream.step k v' x = b at next
    cases next with
    | done _ _ ends => exact ends.elim

/-- When the call fails, the rendering fails with the same message. -/
theorem Expanding.fails (h : Expanding w p t c.replays.size l u u') (filtering : t.Sparing w.spared) (holds : w.Holds l c s)
    (sparing : p.Sparing w.spared) {es : List Event} {why : Stop} {d : Store} (r : Completes k u c es (some why) v d) :
    ∃ why' v' x, Completes k u' s es (some why') v' x ∧ why'.bare? = why.bare? := by
  obtain ⟨v, d', run, last⟩ := r
  obtain ⟨l', v', x, run, holds, streams⟩ := h.run filtering holds sparing run
  rcases streams.step (k := k) filtering holds rfl sparing with ⟨-, ⟨q, rfl⟩, -⟩ | next
  · cases last
  · rw [last] at next
    generalize there : Stream.step k v' x = b at next
    cases next with
    | fail same => exact ⟨_, _, _, ⟨v', x, run, there⟩, same⟩

end Stream

end Stencil
