import Stencil.Proofs.Stream.Run
import Stencil.Proofs.Template.Meaning

/-!
# Elements as streams

The directives that rewrite an element (`strip`, `attrs`, `content` and `replace`) do so lazily, by
streams that read one another. Whatever they evaluate is evaluated before the first event comes out
(`Stream.Delivers`), so the chain of these streams delivers the list that the directives make of the
element as functions on lists (`Stream.delivers_rewritten`).
-/

namespace Stencil

namespace Stream

/-- Giving the stream up changes nothing. -/
def Inert (u : Stream) : Prop := ∀ s, u.close s = s

/-- Skipped steps lead to one that yields the event. -/
def Yields (k : Nat) (u : Stream) (s : Store) (e : Event) (v : Stream) (t : Store) : Prop :=
  ∃ u' s', Run k u s [] u' s' ∧ step k u' s' = .yield e v t

/-- Skipped steps lead to the end of the stream. -/
def Finishes (k : Nat) (u : Stream) (s t : Store) : Prop :=
  ∃ u' s' v, Run k u s [] u' s' ∧ step k u' s' = .done v t ∧ Inert v

/-- Skipped steps lead to a failure. -/
def Fails (k : Nat) (u : Stream) (s : Store) (why : Stop) : Prop :=
  ∃ u' s' v t, Run k u s [] u' s' ∧ step k u' s' = .fail why v t

/-- The stream yields the events and ends. The store changes only before the first event, or before the
end if there is none. -/
def Delivers (k : Nat) : Stream → Store → List Event → Store → Prop
  | u, s, [], t => Finishes k u s t
  | u, s, e :: es, t => ∃ v, Inert v ∧ Yields k u s e v t ∧ ∀ r, Delivers k v r es r

/-- The stream delivers the events of the pieces, or fails as they do. -/
def DeliversAll (k : Nat) (u : Stream) (s : Store) (r : Except Stop (List Piece × Store)) : Prop :=
  match r with
  | .ok (ps, t) => Delivers k u s (ps.map (·.event)) t
  | .error why => Fails k u s why

variable {k : Nat} {u v : Stream} {s t : Store} {e : Event} {es : List Event} {why : Stop}

theorem Fails.after (before : Run k u s [] v t) (h : Fails k v t why) : Fails k u s why := by
  obtain ⟨v', t', w, r, run, fails⟩ := h
  exact ⟨v', t', w, r, before.trans run, fails⟩

theorem Delivers.after {r : Store} (before : Run k u s [] v t) (h : Delivers k v t es r) : Delivers k u s es r := by
  cases es with
  | nil =>
    obtain ⟨v', t', w, run, done⟩ := h
    exact ⟨v', t', w, before.trans run, done⟩
  | cons e es =>
    obtain ⟨w, inert, ⟨v', t', run, yields⟩, rest⟩ := h
    exact ⟨w, inert, ⟨v', t', before.trans run, yields⟩, rest⟩

theorem DeliversAll.after {r : Except Stop (List Piece × Store)} (before : Run k u s [] v t) (h : DeliversAll k v t r) :
    DeliversAll k u s r := by
  cases r with
  | ok p => exact Delivers.after before h
  | error why => exact Fails.after before h

theorem delivers_ended (h : Inert u) (s : Store) : Delivers k (.ended u) s [] s :=
  ⟨_, _, _, .refl _ _, rfl, h⟩

theorem delivers_ofEvents (es : List Event) (s : Store) : Delivers k (.ofEvents es) s es s := by
  induction es generalizing s with
  | nil => exact ⟨_, _, _, .refl _ _, rfl, fun _ => rfl⟩
  | cons e es ih => exact ⟨_, fun _ => rfl, ⟨_, _, .refl _ _, rfl⟩, fun r => ih r⟩

theorem completes_of_delivers (h : Delivers k u s es t) : ∃ w, Completes k u s es none w t := by
  induction es generalizing u s t with
  | nil =>
    obtain ⟨u', s', v, run, done, -⟩ := h
    exact ⟨v, u', s', run, done⟩
  | cons e es ih =>
    obtain ⟨v, -, ⟨u', s', run, yields⟩, rest⟩ := h
    obtain ⟨w, completes⟩ := ih (rest t)
    exact ⟨w, completes.after (run.trans (.single yields))⟩

/-! ## Content -/

section

variable {x : Expression}

/-- Up to the end of the element, the event read last is looked for. -/
theorem Delivers.last (h : Delivers k u s es t) (latest? : Option Event) :
    Delivers k (.content x (.last latest?) u) s (es.getLast?.or latest?).toList t := by
  induction es generalizing u s t latest? with
  | nil =>
    obtain ⟨u', s', v, run, done, inert⟩ := h
    refine Delivers.after (run.through (.last x latest?)) ?_
    have next : step k (.content x (.last latest?) u') s' = stepContent x (.last latest?) (.done v t) := by
      rw [step, done]; simp
    cases latest? with
    | none => exact ⟨_, _, _, .refl _ _, next, inert⟩
    | some latest => exact ⟨.ended v, inert, ⟨_, _, .refl _ _, next⟩, delivers_ended inert⟩
  | cons e es ih =>
    obtain ⟨v, inert, ⟨u', s', run, yields⟩, rest⟩ := h
    have next : step k (.content x (.last latest?) u') s' = .skip (.content x (.last (some e)) v) t := by
      rw [step, yields]; rfl; simp
    have same : ((e :: es).getLast?.or latest?) = es.getLast?.or (some e) := by
      cases h : es.getLast? <;> simp [List.getLast?_cons, h]
    rw [same]
    exact Delivers.after ((run.through (.last x latest?)).trans (.silent next)) (ih (rest t) (some e))

theorem event_filledWith (p : Piece) (ps : List Piece) :
    (Piece.filledWith k x (p :: ps)).map (·.event) = (if p.event.isStart then [p.event] else []) ++
      .expression p.event.position x :: ((ps.map (·.event)).getLast?.or none).toList := by
  simp only [Piece.filledWith, List.map_append, List.map_cons, List.getLast?_map, Option.or_none]
  congr 1
  · split <;> rfl
  · cases ps.getLast? <;> rfl

theorem Delivers.content {ps : List Piece} (h : Delivers k u s (ps.map (·.event)) t) :
    Delivers k (.content x .start u) s ((Piece.filledWith k x ps).map (·.event)) t := by
  cases ps with
  | nil =>
    obtain ⟨u', s', v, run, done, inert⟩ := h
    refine Delivers.after (run.through (.start x)) ⟨_, _, .ended v, .refl _ _, ?_, inert⟩
    rw [step, done]; rfl; simp
  | cons p ps =>
    obtain ⟨v, inert, ⟨u', s', run, yields⟩, rest⟩ := h
    have next : step k (.content x .start u') s' = stepContent x .start (.yield p.event v t) := by
      rw [step, yields]; simp
    have expression (r : Store) : Delivers k (.content x (.expression p.event.position) v) r
        (.expression p.event.position x :: ((ps.map (·.event)).getLast?.or none).toList) r :=
      ⟨.content x (.last none) v, inert, ⟨_, _, .refl _ _, rfl⟩, fun r => (rest r).last none⟩
    rw [event_filledWith]
    refine Delivers.after (run.through (.start x)) ?_
    by_cases start : p.event.isStart
    · rw [if_pos start]
      refine ⟨.content x (.expression p.event.position) v, inert, ⟨_, _, .refl _ _, ?_⟩, expression⟩
      simp only [next, stepContent, start, if_true]
    · rw [if_neg start]
      refine Delivers.after (.silent ?_) (expression t)
      simp only [next, stepContent, start, Bool.false_eq_true, if_false]

/-! ## Replacement -/

theorem Delivers.replaced {ps : List Piece} (h : Delivers k u s (ps.map (·.event)) t) :
    Delivers k (.replaced x u) s ((Piece.replacedBy k x ps).map (·.event)) t := by
  cases ps with
  | nil =>
    obtain ⟨u', s', v, run, done, inert⟩ := h
    refine Delivers.after (run.through (.replaced x)) ⟨_, _, .ended v, .refl _ _, ?_, inert⟩
    rw [step, done]; rfl
  | cons p ps =>
    obtain ⟨v, inert, ⟨u', s', run, yields⟩, rest⟩ := h
    refine Delivers.after (run.through (.replaced x)) ⟨.ended v, inert, ⟨_, _, .refl _ _, ?_⟩, delivers_ended inert⟩
    rw [step, yields]; rfl

end

/-! ## Tags -/

section

variable {test : Option Expression}

/-- Of the events, an event held back being the first one, the last one is dropped. -/
theorem Delivers.holding (h : Delivers k u s es t) (held : Event) :
    Delivers k (.strip test (.holding held) u) s (held :: es).dropLast t := by
  induction es generalizing u s t held with
  | nil =>
    obtain ⟨u', s', v, run, done, inert⟩ := h
    refine Delivers.after (run.through (.strip test (.holding held) (by simp))) ⟨_, _, .ended v, .refl _ _, ?_, inert⟩
    rw [step, done]; rfl; simp
  | cons e es ih =>
    obtain ⟨v, inert, ⟨u', s', run, yields⟩, rest⟩ := h
    refine Delivers.after (run.through (.strip test (.holding held) (by simp)))
      ⟨.strip test (.holding e) v, inert, ⟨_, _, .refl _ _, ?_⟩, fun r => ih (rest r) e⟩
    rw [step, yields]; rfl; simp

theorem Delivers.second (h : Delivers k u s es t) : Delivers k (.strip test .second u) s es.dropLast t := by
  cases es with
  | nil =>
    obtain ⟨u', s', v, run, done, inert⟩ := h
    refine Delivers.after (run.through (.strip test .second (by simp))) ⟨_, _, .ended v, .refl _ _, ?_, inert⟩
    rw [step, done]; rfl; simp
  | cons e es =>
    obtain ⟨v, inert, ⟨u', s', run, yields⟩, rest⟩ := h
    have next : step k (.strip test .second u') s' = .skip (.strip test (.holding e) v) t := by
      rw [step, yields]; rfl; simp
    exact Delivers.after ((run.through (.strip test .second (by simp))).trans (.silent next)) ((rest t).holding e)

theorem Delivers.strip {ps : List Piece} (h : Delivers k u s (ps.map (·.event)) t) :
    Delivers k (.strip test .first u) s ((Piece.stripped ps).map (·.event)) t := by
  cases ps with
  | nil =>
    obtain ⟨u', s', v, run, done, inert⟩ := h
    refine Delivers.after (run.through (.strip test .first (by simp))) ⟨_, _, .ended v, .refl _ _, ?_, inert⟩
    rw [step, done]; rfl; simp
  | cons p ps =>
    obtain ⟨v, inert, ⟨u', s', run, yields⟩, rest⟩ := h
    have next : step k (.strip test .first u') s' = .skip (.strip test .second v) t := by
      rw [step, yields]; rfl; simp
    have same : (Piece.stripped (p :: ps)).map (·.event) = (ps.map (·.event)).dropLast := by
      simp [Piece.stripped, List.map_dropLast]
    rw [same]
    exact Delivers.after ((run.through (.strip test .first (by simp))).trans (.silent next)) (rest t).second

end

/-! ## Attributes -/

/-- A stream that hands on the failures of another one. -/
theorem Fails.through {wrap : Stream → Stream} (h : Fails k u s why) (handsOn : HandsOn wrap)
    (fails : ∀ {u v : Stream} {s t : Store}, step k u s = .fail why v t → ∃ w, step k (wrap u) s = .fail why w t) :
    Fails k (wrap u) s why := by
  obtain ⟨u', s', v, t, run, last⟩ := h
  obtain ⟨w, last⟩ := fails last
  exact ⟨wrap u', s', w, t, run.through handsOn, last⟩

theorem deliversAll_attributes {x : Expression} {m : Eval (List Piece)} (h : DeliversAll k u s (m s)) :
    DeliversAll k (.attributes x u) s ((Directive.attributes x).rewrite k m s) := by
  change DeliversAll k _ s ((m s).bind fun p => Piece.mergedWith k x p.1 p.2)
  generalize m s = r at h
  cases r with
  | error why =>
    exact h.through (.attributes x) fun fails => ⟨_, by rw [step, fails]⟩
  | ok pair =>
    obtain ⟨ps, t⟩ := pair
    cases ps with
    | nil =>
      obtain ⟨u', s', v, run, done, inert⟩ := h
      refine Delivers.after (run.through (.attributes x)) ⟨_, _, v, .refl _ _, ?_, inert⟩
      rw [step, done]
    | cons p ps =>
      obtain ⟨v, inert, ⟨u', s', run, yields⟩, rest⟩ := h
      have next : step k (.attributes x u') s' = mergeInto k x p.event v t := by rw [step, yields]
      refine DeliversAll.after (run.through (.attributes x)) ?_
      obtain ⟨e, meaning⟩ := p
      cases e with
      | startTag pos name as =>
        change DeliversAll k _ s' ((x.eval k t).bind fun q => (if q.1.isTrue then
          (do
            let as ← Eval.ofResult (Attributes.merge as q.1)
            return Piece.leaf k (.startTag pos name as) :: ps : Eval (List Piece))
          else pure (⟨.startTag pos name as, meaning⟩ :: ps)) q.2)
        simp only [mergeInto] at next
        cases value : x.eval k t with
        | error why =>
          rw [value] at next
          exact ⟨_, _, _, _, .refl _ _, next⟩
        | ok q =>
          obtain ⟨w, t'⟩ := q
          rw [value] at next
          simp only [Except.bind]
          split
          · rename_i truth
            simp only [truth, if_true] at next
            cases merged : Attributes.merge as w with
            | error e =>
              rw [merged] at next
              exact ⟨_, _, _, _, .refl _ _, next⟩
            | ok as' =>
              rw [merged] at next
              exact ⟨v, inert, ⟨_, _, .refl _ _, next⟩, rest⟩
          · rename_i falsity
            simp only [falsity, Bool.false_eq_true, if_false] at next
            exact ⟨v, inert, ⟨_, _, .refl _ _, next⟩, rest⟩
      | _ => exact ⟨v, inert, ⟨_, _, .refl _ _, next⟩, rest⟩

/-! ## Chains -/

end Stream

namespace Directive

/-- The directive makes a list of the list of an element's events. -/
def isRewriting : Directive → Bool
  | replace _ | content _ | attributes _ | strip _ => true
  | _ => false

/-- The stream that a rewriting directive puts around that of an element. -/
def wrap (d : Directive) (u : Stream) : Stream :=
  match d with
  | replace x => .replaced x u
  | content x => .content x .start u
  | attributes x => .attributes x u
  | strip test => .strip test .untested u
  | _ => u

end Directive

namespace Stream

variable {k : Nat} {u v : Stream} {s t : Store}

theorem Inert.wrap {u : Stream} (h : Inert u) (d : Directive) : Inert (d.wrap u) := by
  cases d <;> exact h

theorem inert_wrapAll (ds : List Directive) (es : List Event) : Inert (ds.foldr Directive.wrap (.ofEvents es)) := by
  induction ds with
  | nil => exact fun _ => rfl
  | cons d ds ih => exact ih.wrap d

/-- The stream of a directive delivers what the directive makes of the list. -/
theorem deliversAll_wrap {d : Directive} (h : d.isRewriting = true) {m : Eval (List Piece)}
    (inner : ∀ s, DeliversAll k u s (m s)) (s : Store) : DeliversAll k (d.wrap u) s (d.rewrite k m s) := by
  cases d with
  | attributes x => exact deliversAll_attributes (inner s)
  | replace x =>
    have inner := inner s
    change DeliversAll k _ s ((m s).bind fun p => .ok (Piece.replacedBy k x p.1, p.2))
    generalize m s = r at inner
    cases r with
    | ok p => exact Delivers.replaced inner
    | error why =>
      change Fails k (.replaced x u) s why
      exact Fails.through inner (.replaced x) fun fails => ⟨_, by rw [step, fails]; rfl⟩
  | content x =>
    have inner := inner s
    change DeliversAll k _ s ((m s).bind fun p => .ok (Piece.filledWith k x p.1, p.2))
    generalize m s = r at inner
    cases r with
    | ok p => exact Delivers.content inner
    | error why =>
      change Fails k (.content x .start u) s why
      refine Fails.through inner (.start x) fun {_ v _ _} fails => ⟨.content x .start v, ?_⟩
      rw [step, fails]; rfl; simp
  | strip test =>
    have tags {test : Option Expression} {t : Store} {r : Except Stop (List Piece × Store)} (inner : DeliversAll k u t r) :
        DeliversAll k (.strip test .first u) t (r.bind fun p => .ok (Piece.stripped p.1, p.2)) := by
      cases r with
      | ok p => exact Delivers.strip inner
      | error why =>
        refine Fails.through inner (.strip test .first (by simp)) fun {_ v _ _} fails => ⟨.strip test (.holding .blank) v, ?_⟩
        rw [step, fails]; rfl; simp
    cases test with
    | none =>
      change DeliversAll k _ s ((m s).bind fun p => .ok (Piece.stripped p.1, p.2))
      exact DeliversAll.after (.silent rfl) (tags (inner s))
    | some x =>
      change DeliversAll k _ s ((x.eval k s).bind fun q => (m q.2).bind fun p =>
        .ok (if q.1.isTrue then Piece.stripped p.1 else p.1, p.2))
      have next : step k (.strip (some x) .untested u) s = testStrip k (some x) u s := rfl
      simp only [testStrip] at next
      cases value : x.eval k s with
      | error why =>
        rw [value] at next
        exact ⟨_, _, _, _, .refl _ _, next⟩
      | ok q =>
        obtain ⟨w, t⟩ := q
        rw [value] at next
        simp only [Except.bind] at next ⊢
        by_cases truth : w.isTrue = true
        · simp only [truth, if_true] at next ⊢
          exact DeliversAll.after (.silent next) (tags (inner t))
        · simp only [truth, Bool.false_eq_true, if_false] at next ⊢
          have same : ((m t).bind fun p => .ok (p.1, p.2)) = m t := by cases m t <;> rfl
          change DeliversAll k _ s ((m t).bind fun p => .ok (p.1, p.2))
          rw [same]
          exact DeliversAll.after (.silent next) (inner t)
  | _ => cases h

/-- **A chain of rewriting directives delivers what they make of the element as functions on lists.** -/
theorem delivers_rewritten {ds : List Directive} (h : ∀ d ∈ ds, d.isRewriting = true) (ps : List Piece) (s : Store) :
    DeliversAll k (ds.foldr Directive.wrap (.ofEvents (ps.map (·.event)))) s (Directive.rewriteAll k ds ps s) := by
  induction ds generalizing s with
  | nil => exact delivers_ofEvents _ s
  | cons d ds ih =>
    obtain ⟨first, rest⟩ := List.forall_mem_cons.1 h
    exact deliversAll_wrap first (ih rest) s

end Stream

end Stencil
