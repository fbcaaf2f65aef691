import Stencil.Proofs.Stream.Ending

/-!
# Filters and expansions come to an end

Streams that expressions give and elements that are expanded are put in front of the rest of a stream, which waits
for them. As long as no more than a fixed number of streams wait, this can't go on for ever (`Stream.Splices.ends`).
-/

namespace Stencil

open Advance Store

namespace Stream

variable {k n : Nat} {u v w : Stream} {s t r : Store}

/-! ## Streams in front of others -/

theorem leads_append (h : (step k (.append u w) r).LeadsTo v t) :
    (∃ u', (step k u r).LeadsTo u' t ∧ v = .append u' w) ∨
      v = w ∧ (∃ u' q, step k u r = .done u' q) ∧ ∃ s, step k (.append u w) r = .skip w s := by
  simp only [step] at h ⊢
  cases a : step k u r with
  | done u' q =>
    rw [a] at h
    obtain ⟨rfl, rfl⟩ := leadsTo_skip.1 h
    exact .inr ⟨rfl, ⟨u', q, rfl⟩, _, rfl⟩
  | _ =>
    rw [a] at h
    obtain ⟨u', leads, rfl⟩ := LeadsTo.of_map (append · w) h
    exact .inl ⟨u', leads, rfl⟩

/-- Streams that get on along with another one, and may put in front of it one that comes to an end when it has
yielded an event. -/
structure Splices (k n : Nat) {ι : Type} (wrap : ι → Stream → Stream) : Prop where
  waiting : ∀ i u, (wrap i u).waiting = u.waiting
  next : ∀ {i u r x t}, u.SelfContained → r.SelfContained → (step k (wrap i u) r).LeadsTo x t →
    ∃ j v q, q.GoesOn t ∧ ((step k u r).LeadsTo v q ∧ x = wrap j v ∨
      ∃ e w, step k u r = .yield e v q ∧ x = wrap j (.append w v) ∧ w.SelfContained ∧ ∀ t, Ends k n w t)

section

variable {ι : Type} {wrap : ι → Stream → Stream}

/-- What waits for a stream in front of it comes to an end after that one. The induction is over the number of
streams that may still be made to wait, and for each of them over the stream in front. -/
theorem Splices.ends_append (h : Splices k n wrap) (m : Nat) {u : Stream} (room : n ≤ u.waiting + m) {s : Store}
    (stream : (append v u).SelfContained) (front : Ends k n v s) (rest : ∀ i, Ends k n (wrap i u) s) (i : ι) :
    Ends k n (wrap i (.append v u)) s := by
  induction m using Nat.strongRecOn generalizing u v s i with
  | ind m fewer =>
    induction front generalizing i with
    | @intro v s next ih =>
      refine ⟨fun r x t later contained leads few => ?_⟩
      obtain ⟨j, y, q, more, form⟩ := h.next stream contained leads
      have rest {q : Store} (inner : (step k (.append v u) r).LeadsTo y q) (i : ι) : Ends k n (wrap i u) q :=
        (rest i).goesOn (later.trans (goesOn_of_leadsTo inner))
      have kept {q : Store} (inner : (step k (.append v u) r).LeadsTo y q) : y.SelfContained :=
        selfContained_of_leadsTo stream contained inner
      rcases form with ⟨inner, rfl⟩ | ⟨e, w, yields, rfl, events, ends⟩
      · rw [h.waiting] at few
        rcases leads_append inner with ⟨v', first, rfl⟩ | ⟨rfl, -⟩
        · have next := ih r v' q later contained first (Nat.le_trans (Nat.le_max_left ..) few) (kept inner) (rest inner) j
          exact next.goesOn more
        · exact (rest inner j).goesOn more
      · have inner : (step k (.append v u) r).LeadsTo y q := .inr ⟨e, yields⟩
        rcases leads_append inner with ⟨v', first, rfl⟩ | ⟨-, -, s', skips⟩
        · rw [h.waiting] at few
          simp only [Stream.waiting] at few
          have here (i : ι) : Ends k n (wrap i (.append v' u)) q :=
            ih r v' q later contained first (by omega) (kept inner) (rest inner) i
          refine fewer (m - 1) (by omega) ?_ ⟨events, kept inner⟩ (ends t) (fun i => (here i).goesOn more) j
          simp only [Stream.waiting]
          omega
        · rw [yields] at skips
          cases skips

/-- **What is put in front of a stream does not keep it from coming to an end.** -/
theorem Splices.ends (h : Splices k n wrap) (stream : u.SelfContained) (ends : Ends k n u s) (i : ι) :
    Ends k n (wrap i u) s := by
  induction ends generalizing i with
  | @intro u s next ih =>
    refine ⟨fun r x t later contained leads few => ?_⟩
    obtain ⟨j, v, q, more, form⟩ := h.next stream contained leads
    rcases form with ⟨inner, rfl⟩ | ⟨e, w, yields, rfl, events, front⟩
    · rw [h.waiting] at few
      exact (ih r v q later contained inner few (selfContained_of_leadsTo stream contained inner) j).goesOn more
    · rw [h.waiting] at few
      simp only [Stream.waiting] at few
      have inner : (step k u r).LeadsTo v q := .inr ⟨e, yields⟩
      have kept := selfContained_of_leadsTo stream contained inner
      have rest (i : ι) : Ends k n (wrap i v) q := ih r v q later contained inner (by omega) kept i
      exact h.ends_append n (by omega) ⟨events, kept⟩ (front t) (fun i => (rest i).goesOn more) j

end

/-! ## Filters and templates -/

theorem leads_evaluateEvent {e : Event} (h : (evaluateEvent k e u r).LeadsTo v t) :
    v = .evaluated u ∨ ∃ id, v = .evaluated (.append (.shared id) u) := by
  unfold evaluateEvent at h
  split at h
  · split at h
    · exact .inl (leadsTo_yield.1 h).1.symm
    · exact absurd h not_leadsTo_fail
  · split at h
    · exact absurd h not_leadsTo_fail
    · exact .inr ⟨_, (leadsTo_skip.1 h).1.symm⟩
    · split at h
      · exact .inl (leadsTo_skip.1 h).1.symm
      · exact .inl (leadsTo_yield.1 h).1.symm
  · exact .inl (leadsTo_yield.1 h).1.symm

/-- The streams that expressions give are read in front of what comes after them. -/
theorem splices_evaluated : Splices k n fun _ : Unit => evaluated where
  waiting _ _ := rfl
  next := by
    intro _ u r x t _ _ leads
    simp only [step] at leads
    cases a : step k u r with
    | yield e v q =>
      rw [a] at leads
      have later := goesOn_evaluateEvent (k := k) e v q
      rw [leads.store] at later
      rcases leads_evaluateEvent leads with rfl | ⟨id, rfl⟩
      · exact ⟨(), v, q, later, .inl ⟨.inr ⟨e, rfl⟩, rfl⟩⟩
      · exact ⟨(), v, q, later, .inr ⟨e, _, rfl, rfl, trivial, ends_shared id⟩⟩
    | skip v q =>
      rw [a] at leads
      obtain ⟨rfl, rfl⟩ := leadsTo_skip.1 leads
      exact ⟨(), v, q, .refl _, .inl ⟨.inl rfl, rfl⟩⟩
    | done v q =>
      rw [a] at leads
      exact absurd leads not_leadsTo_done
    | fail why v q =>
      rw [a] at leads
      exact absurd leads not_leadsTo_fail

/-- The stream is at its end for ever. -/
def Exhausted (k : Nat) (u : Stream) : Prop := ∀ s, step k u s = .done u s

theorem exhausted_empty : Exhausted k empty := fun _ => rfl

theorem Exhausted.substituted (h : Exhausted k u) (path : Path) (body : BodyId) (openElements : List Event) :
    Exhausted k (.substituted path body openElements u) := by
  intro s
  simp only [step, h s, stepSubstituted, Advance.map]

theorem Exhausted.included (h : Exhausted k u) (filename : Text) (prefixes : List Text) :
    Exhausted k (.included filename prefixes u) := by
  intro s
  simp only [step, h s, stepIncluded, Advance.map]

theorem Exhausted.ends (h : Exhausted k u) (s : Store) : Ends k n u s :=
  ⟨fun r _ _ _ _ leads _ => absurd (h r ▸ leads) not_leadsTo_done⟩

/-- The second stream is the first one, with elements substituted or without the declarations of the include
namespace. -/
inductive Filters (u : Stream) : Stream → Prop
  | substituted (path : Path) (body : BodyId) (openElements : List Event) : Filters u (.substituted path body openElements u)
  | matching (path : Path) (body : BodyId) (openElements : List Event) (p : Position) (depth : Nat) (matched : List Event) :
      Filters u (.matching path body openElements p depth matched u)
  | included (filename : Text) (prefixes : List Text) : Filters u (.included filename prefixes u)

theorem Filters.waiting (h : Filters u w) : w.waiting = u.waiting := by
  cases h <;> rfl

theorem Filters.selfContained (h : Filters u w) (stream : w.SelfContained) : u.SelfContained := by
  cases h with
  | matching => exact stream.2
  | _ => exact stream

theorem leads_stepIncluded {filename : Text} {prefixes : List Text} {e : Event} (event : e.SelfContained)
    (h : (stepIncluded filename prefixes (.yield e u r)).LeadsTo v t) :
    (∃ prefixes, v = .included filename prefixes u) ∧ r = t := by
  cases e with
  | startTag p name as =>
    have other : ¬ name.same includeName = true := by rw [event]; simp
    simp only [stepIncluded, if_neg other] at h
    exact ⟨⟨_, (leadsTo_yield.1 h).1.symm⟩, (leadsTo_yield.1 h).2⟩
  | startNamespace | endNamespace =>
    simp only [stepIncluded] at h
    split at h
    · exact ⟨⟨_, (leadsTo_skip.1 h).1.symm⟩, (leadsTo_skip.1 h).2⟩
    · exact ⟨⟨_, (leadsTo_yield.1 h).1.symm⟩, (leadsTo_yield.1 h).2⟩
  | _ => exact ⟨⟨_, (leadsTo_yield.1 h).1.symm⟩, (leadsTo_yield.1 h).2⟩

/-- A filter goes along with its stream, and has one more event if a matched element is not closed at the end. -/
theorem Filters.leads (h : Filters u w) (stream : u.SelfContained) (contained : r.SelfContained)
    (leads : (step k w r).LeadsTo v t) :
    (∃ x, (step k u r).LeadsTo x t ∧ Filters x v) ∨
      ∃ x q, step k u r = .done x q ∧ (Exhausted k x → Exhausted k v) := by
  have kept := step_selfContained k stream contained
  cases h with
  | substituted path body openElements =>
    simp only [step] at leads
    cases a : step k u r with
    | yield e x q =>
      rw [a] at leads
      simp only [stepSubstituted] at leads
      repeat' split at leads
      · obtain ⟨rfl, rfl⟩ := leadsTo_skip.1 leads
        exact .inl ⟨x, .inr ⟨e, rfl⟩, .matching ..⟩
      all_goals
        obtain ⟨rfl, rfl⟩ := leadsTo_yield.1 leads
        exact .inl ⟨x, .inr ⟨e, rfl⟩, .substituted ..⟩
    | skip x q =>
      rw [a] at leads
      obtain ⟨rfl, rfl⟩ := leadsTo_skip.1 leads
      exact .inl ⟨x, .inl rfl, .substituted ..⟩
    | done x q =>
      rw [a] at leads
      exact absurd leads not_leadsTo_done
    | fail why x q =>
      rw [a] at leads
      exact absurd leads not_leadsTo_fail
  | matching path body openElements p depth matched =>
    simp only [step] at leads
    cases a : step k u r with
    | yield e x q =>
      rw [a] at leads
      simp only [stepMatching] at leads
      generalize (if e.isStart then depth + 1 else if e.isEnd then depth - 1 else depth) = depth at leads
      split at leads
      · obtain ⟨rfl, rfl⟩ := leadsTo_yield.1 leads
        exact .inl ⟨x, .inr ⟨e, rfl⟩, .substituted ..⟩
      · obtain ⟨rfl, rfl⟩ := leadsTo_skip.1 leads
        exact .inl ⟨x, .inr ⟨e, rfl⟩, .matching ..⟩
    | skip x q =>
      rw [a] at leads
      obtain ⟨rfl, rfl⟩ := leadsTo_skip.1 leads
      exact .inl ⟨x, .inl rfl, .matching ..⟩
    | done x q =>
      rw [a] at leads
      obtain ⟨rfl, rfl⟩ := leadsTo_yield.1 leads
      exact .inr ⟨x, q, rfl, fun nothing => nothing.substituted path body openElements⟩
    | fail why x q =>
      rw [a] at leads
      exact absurd leads not_leadsTo_fail
  | included filename prefixes =>
    simp only [step] at leads
    cases a : step k u r with
    | yield e x q =>
      rw [a] at leads kept
      obtain ⟨⟨prefixes, rfl⟩, rfl⟩ := leads_stepIncluded kept.1 leads
      exact .inl ⟨x, .inr ⟨e, rfl⟩, .included ..⟩
    | skip x q =>
      rw [a] at leads
      obtain ⟨rfl, rfl⟩ := leadsTo_skip.1 leads
      exact .inl ⟨x, .inl rfl, .included ..⟩
    | done x q =>
      rw [a] at leads
      exact absurd leads not_leadsTo_done
    | fail why x q =>
      rw [a] at leads
      exact absurd leads not_leadsTo_fail

theorem Filters.done (h : Filters u w) (ends : step k w r = .done v t) :
    ∃ x, step k u r = .done x t ∧ (Exhausted k x → Exhausted k v) := by
  cases h with
  | substituted path body openElements =>
    simp only [step] at ends
    cases a : step k u r with
    | yield e x q =>
      rw [a] at ends
      simp only [stepSubstituted] at ends
      repeat' split at ends
      all_goals cases ends
    | done x q =>
      rw [a] at ends
      cases ends
      exact ⟨x, rfl, fun nothing => nothing.substituted path body openElements⟩
    | _ =>
      rw [a] at ends
      cases ends
  | matching path body openElements p depth matched =>
    simp only [step] at ends
    cases a : step k u r with
    | yield e x q =>
      rw [a] at ends
      simp only [stepMatching] at ends
      repeat' split at ends
      all_goals cases ends
    | _ =>
      rw [a] at ends
      cases ends
  | included filename prefixes =>
    simp only [step] at ends
    cases a : step k u r with
    | yield e x q =>
      rw [a] at ends
      unfold stepIncluded at ends
      repeat' split at ends
      all_goals cases ends
    | done x q =>
      rw [a] at ends
      cases ends
      exact ⟨x, rfl, fun nothing => nothing.included filename prefixes⟩
    | _ =>
      rw [a] at ends
      cases ends

/-- Filters over a stream of computed expressions. Such a stream has nothing more once it is at its end. -/
inductive Chain (k : Nat) : Stream → Prop
  | evaluated (u : Stream) : Chain k (.evaluated u)
  | exhausted {u : Stream} (h : Exhausted k u) : Chain k u
  | filters {u w : Stream} (h : Chain k u) (filters : Filters u w) : Chain k w

theorem exhausted_of_evaluated (h : step k (.evaluated u) r = .done v t) : Exhausted k v := by
  simp only [step] at h
  cases a : step k u r with
  | yield e x q =>
    rw [a] at h
    simp only [evaluateEvent] at h
    repeat' split at h
    all_goals cases h
  | done x q =>
    rw [a] at h
    cases h
    exact exhausted_empty
  | _ =>
    rw [a] at h
    cases h

theorem Chain.done (h : Chain k u) (ends : step k u r = .done v t) : Exhausted k v := by
  induction h generalizing v t with
  | evaluated u => exact exhausted_of_evaluated ends
  | exhausted h =>
    cases (h r).symm.trans ends
    exact h
  | filters _ filters ih =>
    obtain ⟨x, inner, nothing⟩ := filters.done ends
    exact nothing (ih inner)

theorem Chain.next (h : Chain k u) (stream : u.SelfContained) (contained : r.SelfContained)
    (leads : (step k u r).LeadsTo v t) : Chain k v := by
  induction h generalizing v t with
  | evaluated u =>
    obtain ⟨_, w, q, -, ⟨-, rfl⟩ | ⟨e, w', -, rfl, -⟩⟩ := (splices_evaluated (n := 0)).next (u := u) (i := ()) stream contained leads
    · exact .evaluated w
    · exact .evaluated _
  | exhausted h => exact absurd (h r ▸ leads) not_leadsTo_done
  | filters chain filters ih =>
    have inner := filters.selfContained stream
    rcases filters.leads inner contained leads with ⟨x, first, after⟩ | ⟨x, q, ends, nothing⟩
    · exact .filters (ih inner first) after
    · exact .exhausted (nothing (chain.done ends))

theorem Ends.filters (h : Ends k n u s) (chain : Chain k u) (stream : u.SelfContained) (filters : Filters u w) :
    Ends k n w s := by
  refine h.along (P := fun u w => Chain k u ∧ u.SelfContained ∧ Filters u w) ?_ ⟨chain, stream, filters⟩
  rintro u w r x t contained ⟨chain, stream, filters⟩ leads few
  rcases filters.leads stream contained leads with ⟨v, inner, after⟩ | ⟨v, q, ends, nothing⟩
  · exact .keeps inner (.refl _) (after.waiting ▸ few)
      ⟨chain.next stream contained inner, selfContained_of_leadsTo stream contained inner, after⟩
  · exact .ends ((nothing (chain.done ends)).ends t)

end Stream

/-- The filters that the compiler and the library give a template, besides the one that computes expressions. -/
def Filter.Passes : Filter → Prop
  | substitute .. | inclusion _ => True
  | evaluate | tidy => False

namespace Stream

theorem filters_of_passes {f : Filter} (h : f.Passes) (u : Stream) : Filters u (f.apply u) := by
  cases f with
  | substitute path body => exact .substituted path body []
  | inclusion filename => exact .included filename []
  | evaluate | tidy => exact h.elim

/-- Filters that compute the expressions first. -/
theorem Ends.filtered {fs : List Filter} (passes : ∀ f ∈ fs, f.Passes) (stream : u.SelfContained) (h : Ends k n u s) :
    Ends k n (u.filtered (.evaluate :: fs)) s := by
  have evaluated : Ends k n (.evaluated u) s := splices_evaluated.ends stream h ()
  change Ends k n (Stream.filtered fs (.evaluated u)) s
  have chain : Chain k (.evaluated u) := .evaluated u
  replace stream : (Stream.evaluated u).SelfContained := stream
  generalize Stream.evaluated u = u at evaluated chain stream
  induction fs generalizing u with
  | nil => exact evaluated
  | cons f fs ih =>
    obtain ⟨first, rest⟩ := List.forall_mem_cons.1 passes
    have filters := filters_of_passes first u
    have kept : (Stream.filtered [f] u).SelfContained := selfContained_filtered.2 stream
    exact ih rest (f.apply u) (evaluated.filters chain stream filters) (.filters chain filters) kept

/-! ## Expansions -/

section

variable {t : Template} {fs : List Filter} (filters : t.expansionFilters = .evaluate :: fs) (passes : ∀ f ∈ fs, f.Passes)
include filters passes

/-- An element with directives is expanded in front of what comes after it. -/
theorem splices_expanded : Splices k n fun p => expanded t p where
  waiting _ _ := rfl
  next := by
    intro p u r x q stream contained leads
    have kept := step_selfContained k stream contained
    simp only [step] at leads
    cases a : step k u r with
    | yield e v q' =>
      rw [a] at leads kept
      cases e with
      | sub p' ds es =>
        obtain ⟨rfl, rfl⟩ := leadsTo_skip.1 leads
        have element : (directed ds.reverse [] (.ofEvents es)).SelfContained :=
          ⟨Directive.allSelfContained_reverse kept.1.1, trivial, kept.1.2⟩
        refine ⟨p', v, q', .refl _, .inr ⟨_, _, rfl, rfl, selfContained_filtered.2 element, fun t' => ?_⟩⟩
        rw [filters]
        exact ((ends_ofEvents es t').directed ds.reverse []).filtered passes element
      | _ =>
        obtain ⟨rfl, rfl⟩ := leadsTo_yield.1 leads
        exact ⟨_, v, q', .refl _, .inl ⟨.inr ⟨_, rfl⟩, rfl⟩⟩
    | skip v q' =>
      rw [a] at leads
      obtain ⟨rfl, rfl⟩ := leadsTo_skip.1 leads
      exact ⟨p, v, q', .refl _, .inl ⟨.inl rfl, rfl⟩⟩
    | done v q' =>
      rw [a] at leads
      exact absurd leads not_leadsTo_done
    | fail why v q' =>
      rw [a] at leads
      exact absurd leads not_leadsTo_fail

end

/-- A step of an expansion leads to an expansion, and at the end of it nothing is left. -/
theorem expanded_step (t : Template) (p : Position) (u : Stream) (r : Store) :
    (∀ v q, (step k (.expanded t p u) r).LeadsTo v q → ∃ p u, v = .expanded t p u) ∧
      ∀ v q, step k (.expanded t p u) r = .done v q → v = .empty := by
  simp only [step]
  cases step k u r with
  | yield e v q =>
    cases e <;> exact ⟨fun _ _ leads => ⟨_, _, by rcases leads with h | ⟨_, h⟩ <;> cases h; rfl⟩, by rintro _ _ ⟨⟩⟩
  | skip v q => exact ⟨fun _ _ leads => ⟨_, _, (leadsTo_skip.1 leads).1.symm⟩, by rintro _ _ ⟨⟩⟩
  | done v q => exact ⟨fun _ _ leads => absurd leads not_leadsTo_done, by rintro _ _ ⟨⟩; rfl⟩
  | fail why v q => exact ⟨fun _ _ leads => absurd leads not_leadsTo_fail, by rintro _ _ ⟨⟩⟩

theorem leads_tidied {text? : Option (Position × Text)} (h : (step k (.tidied none text? u) r).LeadsTo v t) :
    (∃ x pending? text?, (step k u r).LeadsTo x t ∧ v = .tidied pending? text? x) ∨
      ∃ x, step k u r = .done x t ∧ v = .tidied none none x := by
  simp only [step] at h
  cases a : step k u r with
  | yield e x q =>
    rw [a] at h
    unfold stepTidied at h
    split at h
    · rename_i yields
      cases yields
      obtain ⟨rfl, rfl⟩ := leadsTo_skip.1 h
      exact .inl ⟨_, _, _, .inr ⟨_, rfl⟩, rfl⟩
    · rename_i yields
      cases yields
      split at h
      all_goals
        obtain ⟨rfl, rfl⟩ := leadsTo_yield.1 h
        exact .inl ⟨_, _, _, .inr ⟨_, rfl⟩, rfl⟩
    all_goals rename_i other; cases other
  | skip x q =>
    rw [a] at h
    obtain ⟨rfl, rfl⟩ := leadsTo_skip.1 h
    exact .inl ⟨_, _, _, .inl rfl, rfl⟩
  | done x q =>
    rw [a] at h
    cases text? with
    | none => exact absurd h not_leadsTo_done
    | some text =>
      obtain ⟨rfl, rfl⟩ := leadsTo_yield.1 h
      exact .inr ⟨x, rfl, rfl⟩
  | fail why x q =>
    rw [a] at h
    exact absurd h not_leadsTo_fail

/-- Tidying has an event more for a text, and one for what comes after the text. -/
theorem Ends.tidied {t : Template} {p : Position} (h : Ends k n (.expanded t p u) s) (pending? : Option Event)
    (text? : Option (Position × Text)) : Ends k n (.tidied pending? text? (.expanded t p u)) s := by
  generalize form : Stream.expanded t p u = w at h
  induction h generalizing p u pending? text? with
  | @intro w s next ih =>
    subst form
    have gathers (text? : Option (Position × Text)) {q : Store} (before : s.GoesOn q) :
        Ends k n (.tidied none text? (.expanded t p u)) q := by
      refine ⟨fun r x q' later contained leads few => ?_⟩
      obtain ⟨goes, stops⟩ := expanded_step (k := k) t p u r
      rcases leads_tidied leads with ⟨v, pending?, text?, inner, rfl⟩ | ⟨v, ends, rfl⟩
      · obtain ⟨p', u', rfl⟩ := goes v q' inner
        exact ih r _ _ (before.trans later) contained inner few pending? text? rfl
      · obtain rfl := stops v q' ends
        exact Exhausted.ends (fun _ => rfl) q'
    cases pending? with
    | none => exact gathers text? (.refl s)
    | some e =>
      refine ⟨fun r x q later _ leads _ => ?_⟩
      obtain ⟨rfl, rfl⟩ := leadsTo_yield.1 leads
      exact gathers none later

end Stream

end Stencil
