import Stencil.Proofs.Stream.Done
import Stencil.Proofs.Stream.Included
import Stencil.Proofs.Template.Expansion
import Stencil.Proofs.Template.Literal

/-!
# Computed streams

What comes out of a stream whose expressions are computed, read to its end (`Stream.Evaluates`): a tag with the values
of its attributes, the text of an expression or nothing, and in the place of an expression whose value is a stream
all that comes out of that one. `Stream.completes_evaluated_iff` says so of the stack of streams that the filter keeps.

Nothing is left to be computed then, so computing the expressions of what came out leaves it as it is.
-/

open Stencil.Stream Stencil.Advance

namespace Stencil

variable {k : Nat} {s t r : Store}

/-! ## Attributes -/

/-- The expressions among the pieces give the values, one after another. -/
inductive Fragment.Values (k : Nat) : List Fragment → Store → List Value → Store → Prop
  | nil {s : Store} : Values k [] s [] s
  | literal {t : Text} {fs : List Fragment} {s r : Store} {vs : List Value} (rest : Values k fs s vs r) :
    Values k (.literal t :: fs) s vs r
  | expression {e : Expression} {v : Value} {fs : List Fragment} {s t r : Store} {vs : List Value}
    (value : e.eval k s = .ok (v, t)) (rest : Values k fs t vs r) : Values k (.expression e :: fs) s (v :: vs) r

/-- The pieces with the texts of the values in the places of the expressions. -/
def Fragment.filled : List Fragment → List Value → Text
  | .literal t :: fs, vs => t ++ filled fs vs
  | .expression _ :: fs, v :: vs => (if v.isNull then [] else v.toText) ++ filled fs vs
  | _, _ => []

/-- The value of the attribute is nothing: there are expressions and no text, and none of the expressions gives a value. -/
structure Attribute.IsNothing (a : Attribute) (vs : List Value) : Prop where
  some : a.value ≠ []
  expressions : ∀ f ∈ a.value, f.isExpression = true
  null : ∀ v ∈ vs, v.isNull = true

/-- Attributes with their values computed, in the same order. One is left out if its value is nothing. -/
inductive Attributes.Computes (k : Nat) : Attributes → Store → Attributes → Store → Prop
  | nil {s : Store} : Computes k [] s [] s
  | literal {a : Attribute} {as as' : Attributes} {s r : Store} (literal : a.isLiteral = true) (rest : Computes k as s as' r) :
    Computes k (a :: as) s (a :: as') r
  | dropped {a : Attribute} {as as' : Attributes} {vs : List Value} {s t r : Store} (values : Fragment.Values k a.value s vs t)
    (nothing : a.IsNothing vs) (rest : Computes k as t as' r) : Computes k (a :: as) s as' r
  | computed {a : Attribute} {as as' : Attributes} {vs : List Value} {s t r : Store} (fragments : a.isLiteral = false)
    (values : Fragment.Values k a.value s vs t) (something : ¬ a.IsNothing vs) (rest : Computes k as t as' r) :
    Computes k (a :: as) s (⟨a.name, [.literal (Fragment.filled a.value vs)]⟩ :: as') r

/-- The text that pieces and values come to, if it is not nothing. -/
def Fragment.filled? (fs : List Fragment) (vs : List Value) : Option Text :=
  if fs.all Fragment.isExpression && vs.all Value.isNull then none else some (filled fs vs)

variable {fs : List Fragment} {vs : List Value} {a : Attribute} {as as' : Attributes}

namespace Fragment

theorem filled_of_nothing (expressions : fs.all isExpression = true) (null : vs.all Value.isNull = true) : filled fs vs = [] := by
  induction fs generalizing vs with
  | nil => rw [filled] <;> simp
  | cons f fs ih =>
    cases f with
    | literal => cases expressions
    | expression e =>
      cases vs with
      | nil => rw [filled] <;> simp
      | cons v vs =>
        obtain ⟨first, rest⟩ := Bool.and_eq_true_iff.1 null
        rw [filled, if_pos first, ih expressions rest, List.nil_append]

theorem getD_filled? (fs : List Fragment) (vs : List Value) : (filled? fs vs).getD [] = filled fs vs := by
  unfold filled?
  split
  · rename_i nothing
    obtain ⟨expressions, null⟩ := Bool.and_eq_true_iff.1 nothing
    exact (filled_of_nothing expressions null).symm
  · rfl

theorem filled?_literal (t : Text) (fs : List Fragment) (vs : List Value) :
    filled? (.literal t :: fs) vs = some (t ++ (filled? fs vs).getD []) := by
  rw [getD_filled?]
  rfl

theorem filled?_expression (e : Expression) (v : Value) (fs : List Fragment) (vs : List Value) :
    filled? (.expression e :: fs) (v :: vs) =
      if v.isNull then filled? fs vs else some (v.toText ++ (filled? fs vs).getD []) := by
  rw [getD_filled?]
  cases null : v.isNull <;> simp [filled?, filled, null, isExpression]

end Fragment

theorem Attribute.evalFragments_of_values (h : Fragment.Values k fs s vs r) :
    evalFragments k fs s = .ok (Fragment.filled? fs vs, r) := by
  induction h with
  | nil => rfl
  | literal _ ih =>
    rw [evalFragments, Eval.bind_of_ok ih, Fragment.filled?_literal]
    rfl
  | @expression e v fs s t r vs value _ ih =>
    rw [evalFragments, Eval.bind_of_ok value, Eval.bind_of_ok ih, Fragment.filled?_expression]
    split <;> rfl

theorem Attribute.exists_values {t? : Option Text} (h : evalFragments k fs s = .ok (t?, r)) : ∃ vs, Fragment.Values k fs s vs r := by
  induction fs generalizing t? s with
  | nil =>
    cases h
    exact ⟨[], .nil⟩
  | cons f fs ih =>
    cases f with
    | literal =>
      obtain ⟨rest?, q, rest, given⟩ := Eval.of_bind_ok h
      cases given
      obtain ⟨vs, values⟩ := ih rest
      exact ⟨vs, .literal values⟩
    | expression e =>
      obtain ⟨v, t, value, h⟩ := Eval.of_bind_ok h
      obtain ⟨rest?, q, rest, given⟩ := Eval.of_bind_ok h
      cases given
      obtain ⟨vs, values⟩ := ih rest
      exact ⟨v :: vs, .expression value values⟩

theorem Attribute.isNothing_iff : a.IsNothing vs ↔ a.isLiteral = false ∧ Fragment.filled? a.value vs = none := by
  have nothing : Fragment.filled? a.value vs = none ↔ (∀ f ∈ a.value, f.isExpression = true) ∧ ∀ v ∈ vs, v.isNull = true := by
    simp [Fragment.filled?]
  rw [nothing]
  refine ⟨fun h => ⟨?_, h.expressions, h.null⟩, fun ⟨fragments, expressions, null⟩ => ⟨?_, expressions, null⟩⟩
  · obtain ⟨f, there⟩ := List.exists_mem_of_ne_nil _ h.some
    exact List.all_eq_false.2 ⟨f, there, by simp [h.expressions f there]⟩
  · obtain ⟨f, there, -⟩ := List.all_eq_false.1 fragments
    exact List.ne_nil_of_mem there

theorem Attribute.eval_of_values (fragments : a.isLiteral = false) (values : Fragment.Values k a.value s vs r) :
    a.eval k s = .ok ((Fragment.filled? a.value vs).map fun t => ⟨a.name, [.literal t]⟩, r) := by
  rw [Attribute.eval, if_neg (by simp [fragments]), Eval.bind_of_ok (evalFragments_of_values values)]
  rfl

theorem Attribute.eval_of_isLiteral (literal : a.isLiteral = true) : a.eval k s = .ok (some a, s) := by
  rw [Attribute.eval, if_pos literal]
  rfl

theorem Attribute.filled?_of_something (fragments : a.isLiteral = false) (something : ¬ a.IsNothing vs) :
    Fragment.filled? a.value vs = some (Fragment.filled a.value vs) := by
  cases filled : Fragment.filled? a.value vs with
  | none => exact absurd (isNothing_iff.2 ⟨fragments, filled⟩) something
  | some t => rw [← Fragment.getD_filled?, filled, Option.getD_some]

namespace Attributes

theorem Computes.eval (h : Computes k as s as' r) : as.eval k s = .ok (as', r) := by
  induction h with
  | nil => rfl
  | literal literal _ ih =>
    rw [Attributes.eval, Eval.bind_of_ok (Attribute.eval_of_isLiteral literal), Eval.bind_of_ok ih]
    rfl
  | dropped values nothing _ ih =>
    obtain ⟨fragments, none⟩ := Attribute.isNothing_iff.1 nothing
    rw [Attributes.eval, Eval.bind_of_ok (Attribute.eval_of_values fragments values), Eval.bind_of_ok ih, none]
    rfl
  | computed fragments values something _ ih =>
    rw [Attributes.eval, Eval.bind_of_ok (Attribute.eval_of_values fragments values), Eval.bind_of_ok ih,
      Attribute.filled?_of_something fragments something]
    rfl

theorem computes_of_eval (h : as.eval k s = .ok (as', r)) : Computes k as s as' r := by
  induction as generalizing as' s with
  | nil =>
    cases h
    exact .nil
  | cons a as ih =>
    obtain ⟨a?, t, first, h⟩ := Eval.of_bind_ok h
    obtain ⟨rest, q, others, given⟩ := Eval.of_bind_ok h
    cases given
    cases literal : a.isLiteral with
    | true =>
      rw [Attribute.eval_of_isLiteral literal] at first
      cases first
      exact .literal literal (ih others)
    | false =>
      rw [Attribute.eval, if_neg (by simp [literal])] at first
      obtain ⟨t?, q, fragments, given⟩ := Eval.of_bind_ok first
      cases given
      obtain ⟨vs, values⟩ := Attribute.exists_values fragments
      obtain ⟨rfl, -⟩ := Prod.mk.inj (Except.ok.inj (fragments.symm.trans (Attribute.evalFragments_of_values values)))
      by_cases nothing : a.IsNothing vs
      · rw [(Attribute.isNothing_iff.1 nothing).2]
        exact .dropped values nothing (ih others)
      · rw [Attribute.filled?_of_something literal nothing]
        exact .computed literal values nothing (ih others)

/-- **Computing attributes keeps their order and leaves out those whose value is nothing.** -/
theorem eval_iff : as.eval k s = .ok (as', r) ↔ Computes k as s as' r := ⟨computes_of_eval, Computes.eval⟩

/-- What has been computed is literal. -/
theorem Computes.literal_of (h : Computes k as s as' r) : as'.all (·.isLiteral) = true := by
  induction h with
  | nil => rfl
  | literal literal _ ih => rw [List.all_cons, literal, ih, Bool.and_self]
  | dropped _ _ _ ih => exact ih
  | computed _ _ _ _ ih =>
    rw [List.all_cons, ih, Bool.and_true]
    rfl

end Attributes

/-! ## Events -/

/-- What comes of an event: a tag with its attributes computed, or the text of an expression unless that is nothing. -/
inductive Event.Gives (k : Nat) : Event → Store → Option Event → Store → Prop
  | tag {p : Position} {name : QName} {as as' : Attributes} {s r : Store} (attributes : as.Computes k s as' r) :
    Gives k (.startTag p name as) s (some (.startTag p name as')) r
  | nothing {p : Position} {x : Expression} {v : Value} {s r : Store} (value : x.eval k s = .ok (v, r)) (null : v.isNull = true) :
    Gives k (.expression p x) s none r
  | text {p : Position} {x : Expression} {v : Value} {s r : Store} (value : x.eval k s = .ok (v, r)) (there : v.isNull = false)
    (plain : ∀ id, v ≠ .stream id) : Gives k (.expression p x) s (some (.text p v.toText)) r
  | other {e : Event} {s : Store} (tag : ∀ p name as, e ≠ .startTag p name as) (expression : ∀ p x, e ≠ .expression p x) :
    Gives k e s (some e) s

/-- Nothing of the event is left to be computed. -/
def Event.IsComputed : Event → Prop
  | .startTag _ _ as => ∀ a ∈ as, a.isLiteral = true
  | .expression .. => False
  | _ => True

/-- A step with an event, or without one. -/
def Advance.giving : Option Event → Stream → Store → Advance
  | some e, u, s => .yield e u s
  | none, u, s => .skip u s

variable {e : Event} {e? : Option Event} {u v w : Stream} {us : List Stream} {es gs : List Event} {q : Store}

theorem Event.Gives.isComputed (h : e.Gives k s e? r) : ∀ f ∈ e?, f.IsComputed := by
  cases h with
  | tag attributes =>
    rintro f ⟨⟩
    exact List.all_eq_true.1 attributes.literal_of
  | nothing => exact fun _ there => by cases there
  | text =>
    rintro f ⟨⟩
    exact trivial
  | other tag expression =>
    rintro f ⟨⟩
    cases e with
    | startTag p name as => exact absurd rfl (tag p name as)
    | expression p x => exact absurd rfl (expression p x)
    | _ => exact trivial

namespace Stream

theorem evaluateEvent_of_gives (h : e.Gives k s e? r) (u : Stream) : evaluateEvent k e u s = giving e? (.evaluated u) r := by
  cases h with
  | tag attributes => simp only [evaluateEvent, attributes.eval, giving]
  | @nothing p x v s r value null =>
    rw [evaluateEvent, value]
    cases v <;> cases null <;> rfl
  | @text p x v s r value there plain =>
    rw [evaluateEvent, value]
    cases v with
    | undefined | none => cases there
    | stream id => exact absurd rfl (plain id)
    | _ => rfl
  | other tag expression =>
    cases e with
    | startTag p name as => exact absurd rfl (tag p name as)
    | expression p x => exact absurd rfl (expression p x)
    | _ => rfl

/-- An event gives something, or stands for a stream, or fails. -/
theorem gives_or (k : Nat) (e : Event) (u : Stream) (s : Store) :
    (∃ e? r, e.Gives k s e? r) ∨ (∃ p x id r, e = .expression p x ∧ x.eval k s = .ok (.stream id, r)) ∨
      ∃ why v r, evaluateEvent k e u s = .fail why v r := by
  cases e with
  | startTag p name as =>
    cases evaluated : as.eval k s with
    | ok given => exact .inl ⟨_, _, .tag (Attributes.eval_iff.1 evaluated)⟩
    | error why => exact .inr (.inr ⟨_, _, _, by rw [evaluateEvent, evaluated]⟩)
  | expression p x =>
    cases evaluated : x.eval k s with
    | error why => exact .inr (.inr ⟨_, _, _, by rw [evaluateEvent, evaluated]⟩)
    | ok given =>
      obtain ⟨v, r⟩ := given
      by_cases spliced : ∃ id, v = .stream id
      · obtain ⟨id, rfl⟩ := spliced
        exact .inr (.inl ⟨p, x, id, r, rfl, evaluated⟩)
      · cases null : v.isNull with
        | true => exact .inl ⟨_, _, .nothing evaluated null⟩
        | false => exact .inl ⟨_, _, .text evaluated null fun id same => spliced ⟨id, same⟩⟩
  | _ => exact .inl ⟨_, _, .other (by simp) (by simp)⟩

/-! ## Streams -/

/-- What a stream delivers up to its end if the expressions in it are computed, and the store after it. The stream that
is the value of an expression is read to its own end in the same way before the rest. -/
inductive Evaluates (k : Nat) : Stream → Store → List Event → Store → Prop
  | ends {u w : Stream} {s r : Store} (last : step k u s = .done w r) : Evaluates k u s [] (w.close r)
  | skip {u v : Stream} {s t r : Store} {es : List Event} (first : step k u s = .skip v t) (rest : Evaluates k v t es r) :
    Evaluates k u s es r
  | event {u v : Stream} {s t q r : Store} {e : Event} {e? : Option Event} {es : List Event} (first : step k u s = .yield e v t)
    (gives : e.Gives k t e? q) (rest : Evaluates k v q es r) : Evaluates k u s (e?.toList ++ es) r
  | splice {u v : Stream} {s t q q' r : Store} {p : Position} {x : Expression} {id : Nat} {es fs : List Event}
    (first : step k u s = .yield (.expression p x) v t) (value : x.eval k t = .ok (.stream id, q))
    (spliced : Evaluates k (.shared id) q es q') (rest : Evaluates k v q' fs r) : Evaluates k u s (es ++ fs) r

/-- **Nothing is left to be computed in what has been delivered.** -/
theorem Evaluates.isComputed (h : Evaluates k u s es r) : ∀ e ∈ es, e.IsComputed := by
  induction h with
  | ends => simp
  | skip _ _ ih => exact ih
  | event _ gives _ ih =>
    intro e there
    rcases List.mem_append.1 there with there | there
    · exact gives.isComputed e (Option.mem_toList.1 there)
    · exact ih e there
  | splice _ _ _ _ ih ih' => exact fun e there => (List.mem_append.1 there).elim (ih e) (ih' e)

/-- The streams one after another. -/
def stacked : Stream → List Stream → Stream
  | u, [] => u
  | u, v :: vs => .append u (stacked v vs)

/-- What all the streams of a stack deliver. -/
def EvaluateAll (k : Nat) : List Stream → Store → List Event → Store → Prop
  | [], s, es, r => es = [] ∧ r = s
  | u :: us, s, es, r => ∃ fs gs t, Evaluates k u s fs t ∧ EvaluateAll k us t gs r ∧ es = fs ++ gs

theorem stacked_yield (h : step k u s = .yield e v t) (us : List Stream) :
    step k (stacked u us) s = .yield e (stacked v us) t := by
  cases us with
  | nil => exact h
  | cons w ws =>
    rw [stacked, step, h]
    rfl

theorem stacked_skip (h : step k u s = .skip v t) (us : List Stream) : step k (stacked u us) s = .skip (stacked v us) t := by
  cases us with
  | nil => exact h
  | cons w ws =>
    rw [stacked, step, h]
    rfl

theorem stacked_fail {why : Stop} (h : step k u s = .fail why v t) (us : List Stream) :
    step k (stacked u us) s = .fail why (stacked v us) t := by
  cases us with
  | nil => exact h
  | cons w ws =>
    rw [stacked, step, h]
    rfl

/-- The steps of the filter, which reads the stream on top of a stack. -/
inductive Evaluating (k : Nat) (u : Stream) (us : List Stream) (s : Store) : Advance → Prop
  | done {w : Stream} {t : Store} (inner : step k u s = .done w t) (below : us = []) :
    Evaluating k u us s (.done .empty (w.close t))
  | pop {v w : Stream} {vs : List Stream} {t : Store} (inner : step k u s = .done w t) (below : us = v :: vs) :
    Evaluating k u us s (.skip (.evaluated (stacked v vs)) (w.close t))
  | skip {v : Stream} {t : Store} (inner : step k u s = .skip v t) : Evaluating k u us s (.skip (.evaluated (stacked v us)) t)
  | nothing {e : Event} {v : Stream} {t q : Store} (inner : step k u s = .yield e v t) (gives : e.Gives k t none q) :
    Evaluating k u us s (.skip (.evaluated (stacked v us)) q)
  | event {e f : Event} {v : Stream} {t q : Store} (inner : step k u s = .yield e v t) (gives : e.Gives k t (some f) q) :
    Evaluating k u us s (.yield f (.evaluated (stacked v us)) q)
  | splice {v : Stream} {t q : Store} {p : Position} {x : Expression} {id : Nat} (inner : step k u s = .yield (.expression p x) v t)
    (value : x.eval k t = .ok (.stream id, q)) :
    Evaluating k u us s (.skip (.evaluated (stacked (.shared id) (v :: us))) q)
  | fail {why : Stop} {v : Stream} {t : Store} : Evaluating k u us s (.fail why v t)

theorem evaluating (k : Nat) (u : Stream) (us : List Stream) (s : Store) :
    Evaluating k u us s (step k (.evaluated (stacked u us)) s) := by
  cases inner : step k u s with
  | done w t =>
    cases us with
    | nil =>
      rw [stacked, step, inner]
      exact .done inner rfl
    | cons v vs =>
      rw [evaluated_skip (v := stacked v vs) (by rw [stacked, step, inner])]
      exact .pop inner rfl
  | skip v t =>
    rw [evaluated_skip (stacked_skip inner us)]
    exact .skip inner
  | fail why v t =>
    rw [evaluated_fail (stacked_fail inner us)]
    exact .fail
  | yield e v t =>
    rw [evaluated_yield (stacked_yield inner us)]
    rcases gives_or k e (stacked v us) t with ⟨e?, q, gives⟩ | ⟨p, x, id, q, rfl, value⟩ | ⟨why, w, q, fails⟩
    · rw [evaluateEvent_of_gives gives]
      cases e? with
      | none => exact .nothing inner gives
      | some f => exact .event inner gives
    · rw [evaluateEvent, value]
      exact .splice inner value
    · rw [fails]
      exact .fail

/-- The filter reads the streams of a stack from the top. -/
theorem evaluateAll_of_run (us : List Stream) (h : Run k (.evaluated (stacked u us)) s es v q) (last : step k v q = .done w r) :
    w = .empty ∧ EvaluateAll k (u :: us) s es r := by
  generalize start : Stream.evaluated (stacked u us) = x at h
  induction h generalizing u us with
  | refl x s =>
    subst start
    have now := evaluating k u us s
    rw [last] at now
    cases now with
    | done inner below =>
      subst below
      exact ⟨rfl, _, _, _, .ends inner, ⟨rfl, rfl⟩, rfl⟩
  | @skip _ _ _ s _ _ _ first _ ih =>
    subst start
    have now := evaluating k u us s
    rw [first] at now
    cases now with
    | pop inner below =>
      obtain ⟨rfl, rest⟩ := ih _ last rfl
      subst below
      exact ⟨rfl, _, _, _, .ends inner, rest, rfl⟩
    | skip inner =>
      obtain ⟨rfl, fs, gs, q, top, below, rfl⟩ := ih _ last rfl
      exact ⟨rfl, fs, gs, q, .skip inner top, below, rfl⟩
    | nothing inner gives =>
      obtain ⟨rfl, fs, gs, q, top, below, rfl⟩ := ih _ last rfl
      exact ⟨rfl, fs, gs, q, .event inner gives top, below, rfl⟩
    | splice inner value =>
      obtain ⟨rfl, fs, _, q, spliced, ⟨gs, hs, q', top, below, rfl⟩, rfl⟩ := ih _ last rfl
      exact ⟨rfl, fs ++ gs, hs, q', .splice inner value spliced top, below, (List.append_assoc ..).symm⟩
  | @yield _ _ _ s _ _ _ _ first _ ih =>
    subst start
    have now := evaluating k u us s
    rw [first] at now
    cases now with
    | event inner gives =>
      obtain ⟨rfl, fs, gs, q, top, below, rfl⟩ := ih _ last rfl
      exact ⟨rfl, _, gs, q, .event inner gives top, below, rfl⟩

/-- What the stream on top delivers comes first, then what comes of those below it. -/
theorem completes_of_evaluates (us : List Stream) (h : Evaluates k u s es t) (below : us = [] ∧ gs = [] ∧ r = t ∨
    ∃ v vs, us = v :: vs ∧ Completes k (.evaluated (stacked v vs)) t gs none .empty r) :
    Completes k (.evaluated (stacked u us)) s (es ++ gs) none .empty r := by
  induction h generalizing us gs r with
  | @ends u w s t last =>
    rcases below with ⟨rfl, rfl, rfl⟩ | ⟨v, vs, rfl, rest⟩
    · exact ⟨_, _, .refl _ _, by rw [stacked, step, last]; rfl⟩
    · exact rest.after (.silent (evaluated_skip (by rw [stacked, step, last])))
  | skip first _ ih =>
    have whole := (ih us below).after (.silent (evaluated_skip (stacked_skip first us)))
    exact whole
  | @event u v s t q r' e e? es first gives _ ih =>
    have next : step k (.evaluated (stacked u us)) s = giving e? (.evaluated (stacked v us)) q := by
      rw [evaluated_yield (stacked_yield first us), evaluateEvent_of_gives gives]
    rw [List.append_assoc]
    cases e? with
    | none => exact (ih us below).after (.silent next)
    | some f => exact (ih us below).after (.single next)
  | @splice u v s t q q' r' p x id es fs first value _ _ ih ih' =>
    have next : step k (.evaluated (stacked u us)) s = .skip (.evaluated (stacked (.shared id) (v :: us))) q := by
      rw [evaluated_yield (stacked_yield first us), evaluateEvent, value]
      rfl
    rw [List.append_assoc]
    have whole := (ih (v :: us) (.inr ⟨v, us, rfl, ih' us below⟩)).after (.silent next)
    exact whole

/-- **Computing the expressions of a stream comes to an end if and only if the stream and all that are spliced into it do**, and
this is what comes out then. -/
theorem completes_evaluated_iff : Completes k (.evaluated u) s es none w r ↔ w = .empty ∧ Evaluates k u s es r := by
  constructor
  · rintro ⟨v, q, run, last⟩
    obtain ⟨rfl, fs, _, _, evaluates, ⟨rfl, rfl⟩, rfl⟩ := evaluateAll_of_run [] run last
    rw [List.append_nil]
    exact ⟨rfl, evaluates⟩
  · rintro ⟨rfl, evaluates⟩
    rw [← List.append_nil es]
    exact completes_of_evaluates [] evaluates (.inl ⟨rfl, rfl, rfl⟩)

/-! ## Computing again -/

theorem evaluateEvent_of_isComputed (h : e.IsComputed) (s : Store) : evaluateEvent k e u s = .yield e (.evaluated u) s := by
  cases e with
  | startTag p name as =>
    rw [evaluateEvent, Attributes.eval_literal (List.all_eq_true.2 h)]
  | expression => cases h
  | _ => rfl

/-- A stream with nothing left to be computed goes on as it is. -/
theorem Run.evaluated (h : Run k u s es v r) (computed : ∀ e ∈ es, e.IsComputed) :
    Run k (.evaluated u) s es (.evaluated v) r := by
  induction h with
  | refl => exact .refl _ _
  | skip first _ ih => exact .skip (evaluated_skip first) (ih computed)
  | yield first _ ih =>
    obtain ⟨first', rest⟩ := List.forall_mem_cons.1 computed
    exact .yield ((evaluated_yield first).trans (evaluateEvent_of_isComputed first' _)) (ih rest)

theorem Completes.evaluated (h : Completes k u s es none w r) (computed : ∀ e ∈ es, e.IsComputed) :
    Completes k (.evaluated u) s es none .empty (w.close r) := by
  obtain ⟨v, q, run, last⟩ := h
  exact ⟨_, _, run.evaluated computed, by rw [step, last]; rfl⟩

/-- **What comes out when the expressions of a stream are computed has nothing left to be computed.**

It comes to an end if the stream and those spliced between its events do, and is what they give then: each tag with its
attributes in their order, those left out whose value is nothing. Computing its expressions, wherever this is done, leaves
it as it is. -/
theorem evaluates_of_collect (u : Stream) (s : Store) :
    (∀ k es r, Evaluates k u s es r → ∃ n, ∀ more, n ≤ more → ∃ w,
      (Filter.evaluate.apply u).collect more none s = ⟨es, none, w, r⟩) ∧
      ∀ fuel, ((Filter.evaluate.apply u).collect fuel none s).stop? = none →
        let told := (Filter.evaluate.apply u).collect fuel none s
        Evaluates fuel u s told.events told.store ∧ (∀ e ∈ told.events, e.IsComputed) ∧
          (∀ s', ∃ n, ∀ more, n ≤ more → ∃ w,
            (Filter.evaluate.apply (.ofEvents told.events)).collect more none s' = ⟨told.events, none, w, s'⟩) ∧
          ∃ n, ∀ more, n ≤ more → ∃ w,
            (Filter.evaluate.apply (Filter.evaluate.apply u)).collect more none s = ⟨told.events, none, w, told.store⟩ := by
  have collected {k : Nat} {u v : Stream} {s r : Store} {es : List Event} (h : Completes k u s es none v r) :
      ∃ n, ∀ more, n ≤ more → ∃ w, u.collect more none s = ⟨es, none, w, r⟩ := by
    obtain ⟨n, all⟩ := collect_of_completes (by simp) h
    exact ⟨n, fun more large => ⟨v, all more large⟩⟩
  refine ⟨fun k es r evaluates => collected (completes_evaluated_iff.2 ⟨rfl, evaluates⟩), fun fuel ends => ?_⟩
  intro told
  have completes : Completes fuel (.evaluated u) s told.events none told.stream told.store := by
    rw [← ends]
    exact completes_of_collect (show told.stop? ≠ _ by rw [ends]; simp)
  obtain ⟨empty, evaluates⟩ := completes_evaluated_iff.1 completes
  have computed := evaluates.isComputed
  refine ⟨evaluates, computed, fun s' => ?_, ?_⟩
  · exact collected ((completes_ofEvents (k := fuel) told.events s').evaluated computed)
  · have again := completes.evaluated computed
    rw [empty] at again
    exact collected again

/-- A stream in a stream, and attributes with and without a value. What looks like an expression in a text is none. -/
theorem evaluates_of_collect_nested :
    let s : Store := { Store.ofContext (.ofBase [("n", .int 5), ("outer", .stream 0), ("inner", .stream 1)]) (.empty []) with
      replays := #[.plain [.expression ⟨2, 1⟩ ⟨"inner"⟩, .text ⟨2, 7⟩ "b"], .plain [.text ⟨3, 1⟩ "${n}"]] }
    let u := Stream.ofEvents
      [.startTag ⟨1, 1⟩ (.plain "a") [⟨.plain "x", [.expression ⟨"m"⟩]⟩, ⟨.plain "y", [.expression ⟨"m"⟩, .expression ⟨"n"⟩]⟩,
        ⟨.plain "z", []⟩], .expression ⟨1, 9⟩ ⟨"outer"⟩, .endTag ⟨1, 20⟩ (.plain "a")]
    ((Filter.evaluate.apply u).collect 20 none s).stop? = none ∧ ∃ n, ∀ more, n ≤ more →
      ∃ w r, (Filter.evaluate.apply (Filter.evaluate.apply u)).collect more none s =
        ⟨[.startTag ⟨1, 1⟩ (.plain "a") [⟨.plain "y", [.literal "5"]⟩, ⟨.plain "z", []⟩], .text ⟨3, 1⟩ "${n}", .text ⟨2, 7⟩ "b",
          .endTag ⟨1, 20⟩ (.plain "a")], none, w, r⟩ := by
  intro s u
  have ends : ((Filter.evaluate.apply u).collect 20 none s).stop? = none := by rfl
  obtain ⟨-, -, -, n, again⟩ := (evaluates_of_collect u s).2 20 ends
  refine ⟨ends, n, fun more large => ?_⟩
  obtain ⟨w, all⟩ := again more large
  exact ⟨w, _, all⟩

end Stream

end Stencil
