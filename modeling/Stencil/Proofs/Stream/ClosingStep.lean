import Stencil.Proofs.Stream.Closing
import Stencil.Stream.Step

/-!
# Steps of elements that close what is open

Whatever a step of an element yields that directives have been applied to is proper, and the rest of the
element closes what is open then (`Stream.step_closesBare`). Such elements read no stream that is a value, so
where these have got to does not matter.
-/

namespace Stencil

namespace Event

/-- The same event, or the same start tag with other attributes. -/
def SameTag (e e' : Event) : Prop :=
  e' = e ∨ ∃ p name as as', e = .startTag p name as ∧ e' = .startTag p name as'

variable {trust : Trust} {e e' : Event} {es : List Event} {ns : List Text}

theorem SameTag.pair (h : SameTag e e') (ns : List Text) : e'.pair ns = e.pair ns := by
  rcases h with rfl | ⟨p, name, as, as', rfl, rfl⟩ <;> rfl

theorem SameTag.trans {e'' : Event} (h : SameTag e e') (h' : SameTag e' e'') : SameTag e e'' := by
  rcases h with rfl | ⟨p, name, as, as', rfl, rfl⟩
  · exact h'
  · rcases h' with rfl | ⟨_, _, _, as'', tag, rfl⟩
    · exact .inr ⟨p, name, as, as', rfl, rfl⟩
    · cases tag
      exact .inr ⟨p, name, as, as'', rfl, rfl⟩

theorem SameTag.proper (h : SameTag e e') (proper : e.Proper trust) : e'.Proper trust := by
  rcases h with rfl | ⟨p, name, as, as', rfl, rfl⟩
  · exact proper
  · trivial

theorem SameTag.dropLast (h : SameTag e e') (ns : List Text) (es : List Event) :
    pairAll ns (e' :: es).dropLast = pairAll ns (e :: es).dropLast := by
  cases es with
  | nil => rfl
  | cons => simp only [List.dropLast_cons_cons, pairAll_cons, h.pair]

end Event

open Store

variable {trust : Trust} {k : Nat} {u v : Stream} {s r : Store} {e : Event} {es : List Event} {ns ns' : List Text}

/-! ## Elements -/

namespace Stream

/-- The state after a step of an element that directives have been applied to. -/
structure BareAfter (trust : Trust) (s : Store) (v : Stream) (r : Store) (ns : List Text) : Prop where
  closes : v.ClosesBare trust ns
  sound : r.Sound trust
  grows : s.Grows trust r

end Stream

namespace Advance

/-- A step on the way through the events of an element. -/
inductive Unwraps (trust : Trust) (s : Store) : List Event → Advance → Prop
  | yield {e e' : Event} {es : List Event} {v : Stream} {r : Store} (same : Event.SameTag e e')
      (left : v.element? = some es) (sound : r.Sound trust) (grows : s.Grows trust r) :
      Unwraps trust s (e :: es) (.yield e' v r)
  | done {v : Stream} {r : Store} (left : v.element? = some []) (sound : r.Sound trust) (grows : s.Grows trust r) :
      Unwraps trust s [] (.done v r)
  | fail {es : List Event} {why : Stop} {v : Stream} {r : Store} : Unwraps trust s es (.fail why v r)

/-- A step of an element that directives have been applied to. -/
inductive KeepsBare (trust : Trust) (s : Store) : List Text → Advance → Prop
  | skip {ns : List Text} {v : Stream} {r : Store} (after : Stream.BareAfter trust s v r ns) : KeepsBare trust s ns (.skip v r)
  | yield {ns ns' : List Text} {e : Event} {v : Stream} {r : Store} (proper : e.Proper trust) (pair : e.pair ns = some ns')
      (after : Stream.BareAfter trust s v r ns') : KeepsBare trust s ns (.yield e v r)
  | done {v : Stream} {r : Store} (after : Stream.BareAfter trust s v r []) : KeepsBare trust s [] (.done v r)
  | fail {ns : List Text} {why : Stop} {v : Stream} {r : Store} : KeepsBare trust s ns (.fail why v r)

end Advance

open Advance

namespace Stream

/-- Merging attributes into an event fails or yields the event with other attributes. -/
theorem mergeInto_cases (x : Expression) (e : Event) (h : s.Sound trust) :
    (∃ why w t, mergeInto k x e v s = .fail why w t) ∨
      ∃ e' t, mergeInto k x e v s = .yield e' v t ∧ Event.SameTag e e' ∧ t.Sound trust ∧ s.Grows trust t := by
  unfold mergeInto
  split
  · rename_i p name as
    cases value : x.eval k s with
    | error why => exact .inl ⟨_, _, _, rfl⟩
    | ok q =>
      obtain ⟨w, t⟩ := q
      obtain ⟨⟨sound, grows⟩, -⟩ := x.eval_paired h value
      dsimp only
      split
      · cases merged : Attributes.merge as w with
        | error => exact .inl ⟨_, _, _, rfl⟩
        | ok as' => exact .inr ⟨_, _, rfl, .inr ⟨p, name, as, as', rfl, rfl⟩, sound, grows⟩
      · exact .inr ⟨_, _, rfl, .inl rfl, sound, grows⟩
  · exact .inr ⟨_, _, rfl, .inl rfl, h, .refl s⟩

/-- An element is read event by event. -/
theorem step_element (h : s.Sound trust) (element : u.element? = some es) : Unwraps trust s es (step k u s) := by
  induction u generalizing es with
  | replay q =>
    cases q with
    | plain fs =>
      cases element
      cases es with
      | nil => exact .done rfl h (.refl s)
      | cons e es => exact .yield (.inl rfl) rfl h (.refl s)
    | _ => cases element
  | attributes x u ih =>
    have inner := ih element
    rw [step]
    generalize step k u s = a at inner
    cases inner with
    | @yield _ e' _ v r same left sound grows =>
      dsimp only
      rcases mergeInto_cases (k := k) (v := v) x e' sound with ⟨_, _, _, fails⟩ | ⟨e'', t, yields, same', sound', larger⟩
      · rw [fails]
        exact .fail
      · rw [yields]
        exact .yield (same.trans same') left sound' (grows.trans larger)
    | done left sound grows => exact .done left sound grows
    | fail => exact .fail
  | _ => cases element

/-! ### Replays and loops -/

theorem closesBare_stepReplay {q : Replay} (h : s.Sound trust) (closes : q.Closes trust ns) :
    KeepsBare trust s ns (stepReplay q .replay s) := by
  have made := closes.context h.context
  have sound : Store.Sound trust { s with context := (q.next s.context).2.2 } := h.withContext made
  unfold stepReplay
  cases next : (q.next s.context).1 with
  | none =>
    obtain ⟨rfl, -, rest⟩ := closes.ended next
    generalize q.next s.context = p at *
    obtain ⟨e?, q', c⟩ := p
    subst next
    exact .done ⟨rest, sound, grows_of_replays rfl⟩
  | some e =>
    obtain ⟨proper, after, pair, rest⟩ := closes.yields next
    generalize q.next s.context = p at *
    obtain ⟨e?, q', c⟩ := p
    subst next
    exact .yield proper pair ⟨rest, sound, grows_of_replays rfl⟩

theorem closesBare_startLoop {targets : List Text} {items : Expression} (h : s.Sound trust) (inside : u.ClosesBare trust []) :
    KeepsBare trust s [] (startLoop k targets items u s) := by
  unfold startLoop
  cases value : items.eval k s with
  | error why => exact .fail
  | ok q =>
    obtain ⟨v, r⟩ := q
    obtain ⟨⟨sound, grows⟩, made⟩ := items.eval_paired h value
    dsimp only
    split
    · exact .done ⟨⟨rfl, inside.bare⟩, sound, grows⟩
    · cases list : v.items with
      | error => exact .fail
      | ok vs => exact .skip ⟨⟨rfl, made.items list, trivial, [], rfl, inside⟩, sound, grows⟩

theorem closesBare_startIteration {targets : List Text} {item : Value} {items : List Value} {body? : Option (List Event)}
    (h : s.Sound trust) (made : item.From (.paired trust)) (others : ∀ v ∈ items, v.From (.paired trust))
    (bodies : ∀ body ∈ body?, Event.Closing trust [] body) (bare : u.Bare) :
    KeepsBare trust s [] (startIteration targets item items body? u s) := by
  unfold startIteration
  cases framed : loopFrame targets item with
  | error => exact .fail
  | ok frame =>
    have sound : (s.pushFrame frame).Sound trust := h.withContext (h.context.push (loopFrame_from made framed))
    cases body? with
    | none => exact .fail
    | some body => exact .skip ⟨⟨others, bodies, bodies body rfl, bare⟩, sound, grows_of_replays rfl⟩

theorem closesBare_stepLoop {targets : List Text} {items : List Value} {body? : Option (List Event)}
    {current? : Option (Nat × List Event)} (h : s.Sound trust) (closes : (looping targets items body? current? u).ClosesBare trust ns) :
    KeepsBare trust s ns (stepLoop targets items body? current? u s) := by
  obtain ⟨made, bodies, current, bare⟩ := closes
  unfold stepLoop
  split
  · rename_i depth e es
    obtain ⟨paired, proper⟩ := current
    obtain ⟨after, first, rest⟩ := Event.pairAll_cons_some paired
    exact .yield proper.1 first ⟨⟨made, bodies, ⟨rest, proper.2⟩, bare⟩, h, .refl s⟩
  · rename_i depth
    have released := h.releases depth
    exact .skip ⟨⟨made, bodies, current, bare⟩, released.sound, released.grows⟩
  · cases current.1
    exact .done ⟨⟨made, bodies, ⟨rfl, trivial⟩, bare⟩, h, .refl s⟩
  · rename_i item items
    cases current.1
    obtain ⟨first, others⟩ := List.forall_mem_cons.1 made
    exact closesBare_startIteration h first others bodies bare

/-! ### Content -/

/-- The last event of the events that are left, or else the one read before. -/
theorem closesBare_last {x : Expression} {latest? : Option Event} {q : Position} {name : QName} (h : s.Sound trust)
    (element : u.element? = some es) (proper : Event.AllProper trust es)
    (last : es.getLast?.or latest? = some (.endTag q name)) :
    KeepsBare trust s [name.qualified] (stepContent x (.last latest?) (step k u s)) := by
  have inner := step_element (k := k) h element
  generalize step k u s = a at inner
  cases inner with
  | @yield e e' es v r same left sound grows =>
    refine .skip ⟨⟨es, left, proper.2, q, name, ?_, rfl⟩, sound, grows⟩
    cases es with
    | nil =>
      -- the end tag is not one of the events whose attributes change
      simp only [List.getLast?_singleton, Option.some_or, Option.some.injEq] at last
      subst last
      rcases same with rfl | ⟨_, _, _, _, tag, -⟩
      · rfl
      · cases tag
    | cons f es => simpa [List.getLast?_cons] using last
  | done left sound grows =>
    obtain rfl : latest? = some (.endTag q name) := last
    exact .yield trivial (Event.pair_endTag_self q name []) ⟨⟨rfl, bare_of_element left⟩, sound, grows⟩
  | fail => cases latest? <;> exact .fail

theorem closesBare_content {x : Expression} {phase : ContentPhase} (h : s.Sound trust)
    (closes : (content x phase u).ClosesBare trust ns) : KeepsBare trust s ns (step k (content x phase u) s) := by
  obtain ⟨es, element, proper, position⟩ := closes
  cases phase with
  | start =>
    obtain ⟨rfl, p, name, as, inside, q, endName, rfl, same, -⟩ := position
    have inner := step_element (k := k) h element
    change KeepsBare trust s [] (stepContent x .start (step k u s))
    generalize step k u s = a at inner
    cases inner with
    | @yield _ e' _ v r tag left sound grows =>
      obtain ⟨as', rfl⟩ : ∃ as', e' = .startTag p name as' := by
        rcases tag with rfl | ⟨_, _, _, as', tag, rfl⟩
        · exact ⟨as, rfl⟩
        · cases tag
          exact ⟨as', rfl⟩
      refine .yield trivial rfl ⟨⟨_, left, proper.2, q, endName, by simp, ?_⟩, sound, grows⟩
      rw [same]
    | fail => exact .fail
  | expression p =>
    obtain ⟨q, name, last, rfl⟩ := position
    exact .yield trivial rfl ⟨⟨es, element, proper, q, name, by simp [last], rfl⟩, h, .refl s⟩
  | last latest? =>
    obtain ⟨q, name, last, rfl⟩ := position
    exact closesBare_last h element proper last

/-! ### Tags -/

theorem closesBare_strip {test : Option Expression} {phase : StripPhase} (h : s.Sound trust)
    (closes : (strip test phase u).ClosesBare trust ns) : KeepsBare trust s ns (step k (strip test phase u) s) := by
  obtain ⟨es, element, proper, position⟩ := closes
  have inner := step_element (k := k) h element
  cases phase with
  | untested =>
    obtain ⟨rfl, whole⟩ := position
    change KeepsBare trust s [] (testStrip k test u s)
    unfold testStrip
    cases test with
    | none => exact .skip ⟨⟨es, element, proper, rfl, whole⟩, h, .refl s⟩
    | some x =>
      cases value : x.eval k s with
      | error why => simp only [value]; exact .fail
      | ok q =>
        obtain ⟨w, r⟩ := q
        obtain ⟨⟨sound, grows⟩, -⟩ := x.eval_paired h value
        simp only [value]
        split
        · exact .skip ⟨⟨es, element, proper, rfl, whole⟩, sound, grows⟩
        · exact .skip ⟨closesBare_of_element element ⟨whole.paired, proper⟩, sound, grows⟩
  | first =>
    obtain ⟨rfl, p, name, as, inside, q, endName, rfl, -, paired⟩ := position
    change KeepsBare trust s [] (stepStrip test .first (step k u s))
    generalize step k u s = a at inner
    cases inner with
    | yield tag left sound grows =>
      exact .skip ⟨⟨_, left, proper.2, rfl, by rwa [List.dropLast_concat]⟩, sound, grows⟩
    | fail => exact .fail
  | second =>
    obtain ⟨rfl, paired⟩ := position
    change KeepsBare trust s [] (stepStrip test .second (step k u s))
    generalize step k u s = a at inner
    cases inner with
    | yield tag left sound grows =>
      exact .skip ⟨⟨_, left, proper.2, tag.proper proper.1, (tag.dropLast _ _).trans paired⟩, sound, grows⟩
    | done left sound grows => exact .done ⟨⟨rfl, bare_of_element left⟩, sound, grows⟩
    | fail => exact .fail
  | holding held =>
    obtain ⟨heldProper, paired⟩ := position
    change KeepsBare trust s ns (stepStrip test (.holding held) (step k u s))
    generalize step k u s = a at inner
    cases inner with
    | yield tag left sound grows =>
      obtain ⟨after, first, rest⟩ := Event.pairAll_cons_some paired
      exact .yield heldProper first
        ⟨⟨_, left, proper.2, tag.proper proper.1, (tag.dropLast _ _).trans rest⟩, sound, grows⟩
    | done left sound grows =>
      obtain rfl : ns = [] := Option.some.inj paired
      exact .done ⟨⟨rfl, bare_of_element left⟩, sound, grows⟩
    | fail => exact .fail

/-! ### All of them -/

/-- **The step lemma for an element that directives have been applied to.** -/
theorem step_closesBare (h : s.Sound trust) (closes : u.ClosesBare trust ns) : KeepsBare trust s ns (step k u s) := by
  induction u generalizing ns with
  | replay q => exact closesBare_stepReplay h closes
  | ended u =>
    obtain ⟨rfl, bare⟩ := closes
    exact .done ⟨⟨rfl, bare⟩, h, .refl s⟩
  | loop targets items u =>
    obtain ⟨rfl, inside⟩ := closes
    exact closesBare_startLoop h inside
  | gathering targets items body u ih =>
    obtain ⟨rfl, made, proper, inner, paired, inside⟩ := closes
    have first := ih inside
    rw [step]
    generalize step k u s = a at first
    cases first with
    | skip after => exact .skip ⟨⟨rfl, made, proper, inner, paired, after.closes⟩, after.sound, after.grows⟩
    | @yield _ inner' e v r properEvent pair after =>
      have read := Event.pairAll_reverse_cons paired pair
      exact .skip ⟨⟨rfl, made, ⟨properEvent, proper⟩, inner', read, after.closes⟩, after.sound, after.grows⟩
    | done after =>
      refine .skip ⟨⟨made, ?_, ⟨rfl, trivial⟩, after.closes.bare⟩, after.sound, after.grows⟩
      rintro _ ⟨⟩
      exact ⟨paired, Event.allProper_reverse.2 proper⟩
    | fail => exact .fail
  | looping targets items body? current? u => exact closesBare_stepLoop h closes
  | attributes x u ih =>
    have first := ih closes
    rw [step]
    generalize step k u s = a at first
    cases first with
    | skip after => exact .skip ⟨after.closes, after.sound, after.grows⟩
    | @yield _ _ e v r proper pair after =>
      dsimp only
      rcases mergeInto_cases (k := k) (v := v) x e after.sound with ⟨_, _, _, fails⟩ | ⟨e', t, yields, same, sound, larger⟩
      · rw [fails]
        exact .fail
      · rw [yields]
        exact .yield (same.proper proper) ((same.pair _).trans pair) ⟨after.closes, sound, after.grows.trans larger⟩
    | done after => exact .done after
    | fail => exact .fail
  | content x phase u => exact closesBare_content h closes
  | replaced x u ih =>
    obtain ⟨rfl, inside⟩ := closes
    have first := ih inside
    rw [step]
    generalize step k u s = a at first
    cases first with
    | skip after => exact .skip ⟨⟨rfl, after.closes⟩, after.sound, after.grows⟩
    | yield proper pair after => exact .yield trivial rfl ⟨⟨rfl, after.closes.bare⟩, after.sound, after.grows⟩
    | done after => exact .done ⟨⟨rfl, after.closes.bare⟩, after.sound, after.grows⟩
    | fail => exact .fail
  | strip test phase u => exact closesBare_strip h closes
  | _ => exact closes.elim

end Stream

end Stencil
