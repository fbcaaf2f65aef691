import Stencil.Proofs.Value.Stock
import Stencil.Expr.Evaluation

/-!
# Evaluation from related stores

`Eval.Simulates R m m' Q`: from stores related by `R`, the first computation runs out of fuel, or the
two come to the same. They fail alike, or they give the same value, which has `Q`, and related stores.

One induction over expressions and calls shows that evaluation simulates itself for every relation
that allows for the ways in which evaluation changes the store (`Expression.eval_simulates`), with at
least as much fuel on the second side. What evaluation keeps, that more fuel changes no result, and
what evaluation does not look at are three choices of the relation.
-/

namespace Stencil

/-- The stop of an expression: it has no place yet. -/
def Stop.OfExpression : Stop → Prop
  | .fault (.badSyntax _ none) | .fault (.badEvaluation _ none) | .outOfFuel => True
  | _ => False

namespace Eval

variable {α β : Type} {R : Store → Store → Prop} {Q : α → Prop} {Q' : β → Prop}

/-- The first result is for want of fuel, or the results are the same up to related stores: both fail as expressions do,
or both give a value. -/
inductive Agree (R : Store → Store → Prop) (Q : α → Prop) :
    Except Stop (α × Store) → Except Stop (α × Store) → Prop
  | outOfFuel (r : Except Stop (α × Store)) : Agree R Q (.error .outOfFuel) r
  | error {why : Stop} (plain : why.OfExpression) : Agree R Q (.error why) (.error why)
  | ok {a : α} {s s' : Store} (related : R s s') (value : Q a) : Agree R Q (.ok (a, s)) (.ok (a, s'))

/-- From related stores the two computations come to the same, unless the first lacks fuel. -/
def Simulates (R : Store → Store → Prop) (m m' : Eval α) (Q : α → Prop) : Prop :=
  ∀ s s', R s s' → Agree R Q (m s) (m' s')

theorem simulates_pure {a : α} (h : Q a) : Simulates R (pure a) (pure a) Q := fun _ _ r => .ok r h

theorem simulates_stop {why : Stop} (plain : why.OfExpression) : Simulates R (stop why) (stop why) Q :=
  fun _ _ _ => .error plain

theorem simulates_outOfFuel (m : Eval α) : Simulates R (stop .outOfFuel) m Q := fun _ _ _ => .outOfFuel _

theorem simulates_fail (e : EvalError) : Simulates R (fail e) (fail e) Q := simulates_stop trivial

theorem simulates_ofResult {r : Value.Result α} (h : ∀ a, r = .ok a → Q a) :
    Simulates R (ofResult r) (ofResult r) Q := by
  cases r with
  | ok a => exact simulates_pure (h a rfl)
  | error e => exact simulates_fail e

theorem Simulates.bind {m m' : Eval α} {f f' : α → Eval β} (hm : Simulates R m m' Q)
    (hf : ∀ a, Q a → Simulates R (f a) (f' a) Q') : Simulates R (m >>= f) (m' >>= f') Q' := by
  intro s s' r
  have first := hm s s' r
  change Agree R Q' ((m s).bind fun p => f p.1 p.2) ((m' s').bind fun p => f' p.1 p.2)
  generalize m s = x, m' s' = y at first
  cases first with
  | outOfFuel => exact .outOfFuel _
  | error plain => exact .error plain
  | ok related value => exact hf _ value _ _ related

/-- A relation that evaluation can't break: the stores have the same bindings, made from the stock, and
making the same function or stream in both keeps the relation and stays within the stock. -/
structure Allows (k : Stock) (R : Store → Store → Prop) : Prop where
  context : ∀ {s s'}, R s s' → s.context = s'.context ∧ s.context.From k
  host : ∀ {s s'}, R s s' → s.host = s'.host
  counter : ∀ {s s'}, R s s' → s.nextFunction = s'.nextFunction ∧
    R { s with nextFunction := s.nextFunction + 1 } { s' with nextFunction := s'.nextFunction + 1 }
  builtin : ∀ {id kind}, kind = .length ∨ kind = .text ∨ kind = .range ∨ kind = .defined → k.function ⟨id, kind⟩
  template : ∀ {s s' f signature body frame}, R s s' → k.function f → f.kind = .template signature body →
    Entries.From k frame → s.replays.size = s'.replays.size ∧ k.stream s.replays.size ∧
    R (s.newStream (.waiting frame (s.body body))).2 (s'.newStream (.waiting frame (s'.body body))).2
  select : ∀ {s s' f matched path}, R s s' → k.function f → f.kind = .select matched →
    s.replays.size = s'.replays.size ∧ k.stream s.replays.size ∧
    R (s.newStream (.plain (Path.select path matched))).2 (s'.newStream (.plain (Path.select path matched))).2

end Eval

namespace Host

theorem from_call {h : Host} {k : Stock} {number : Nat} {a : Arguments} {v : Value} (ha : a.From k)
    (r : h.call number a = .ok v) : v.From k := by
  unfold call at r
  cases answer : h.answer number a with
  | ok w =>
    rw [answer] at r
    cases r
    exact h.made answer ha
  | error message =>
    rw [answer] at r
    cases r

theorem call_rename (h : Host) (number : Nat) (a : Arguments) {ρ : Nat → Nat} (different : ρ.Injective) :
    h.call number (a.rename ρ) = (h.call number a).map (Value.rename ρ) := by
  rw [call, call, h.renamed number a different]
  cases h.answer number a <;> rfl

end Host

/-! ## Expressions -/

namespace Expr

open Eval

variable {k : Stock} {R : Store → Store → Prop} {call call' : Caller}

/-- The second way of calling does for functions of the stock what the first one does. -/
def Covers (k : Stock) (R : Store → Store → Prop) (call call' : Caller) : Prop :=
  ∀ f a, k.function f → a.From k → Simulates R (call f a) (call' f a) (Value.From k)

theorem builtin_simulates (allows : Allows k R) (name : Text) : Simulates R (builtin name) (builtin name) (Value.From k) := by
  unfold builtin
  split
  · exact simulates_pure (allows.builtin (.inl rfl))
  split
  · exact simulates_pure (allows.builtin (.inr (.inl rfl)))
  split
  · exact simulates_pure (allows.builtin (.inr (.inr (.inl rfl))))
  split
  · intro s s' r
    obtain ⟨same, related⟩ := allows.counter r
    simp only [Store.newFunction, same] at related ⊢
    exact .ok related (allows.builtin (.inr (.inr (.inr rfl))))
  · exact simulates_pure Value.from_undefined

theorem lookup_simulates (allows : Allows k R) (name : Text) : Simulates R (lookup name) (lookup name) (Value.From k) := by
  intro s s' r
  obtain ⟨same, made⟩ := allows.context r
  change Agree R _
    ((if (s.context.get name).isUndefined then builtin name else pure (s.context.get name)) s)
    ((if (s'.context.get name).isUndefined then builtin name else pure (s'.context.get name)) s')
  rw [← same]
  split
  · exact builtin_simulates allows name s s' r
  · exact .ok r made.get

theorem checkCallee_simulates (callee : Expr) (v : Value) :
    Simulates R (checkCallee callee v) (checkCallee callee v) fun _ => True := by
  unfold checkCallee
  split
  · split
    · exact simulates_fail _
    · exact simulates_pure trivial
  · exact simulates_pure trivial

theorem apply_simulates (hcall : Covers k R call call') {v : Value} {a : Arguments} (hv : v.From k) (ha : a.From k) :
    Simulates R (apply call v a) (apply call' v a) (Value.From k) := by
  cases v with
  | function f => exact hcall f a hv ha
  | _ => exact simulates_fail _

theorem dictKey_simulates (v : Value) : Simulates R (dictKey v) (dictKey v) fun _ => True := by
  cases v with
  | text t => exact simulates_pure trivial
  | _ => exact simulates_fail _

mutual

/-- Evaluating an expression comes to the same from related stores. -/
theorem evalWith_simulates (allows : Allows k R) (hcall : Covers k R call call') (e : Expr) :
    Simulates R (evalWith call e) (evalWith call' e) (Value.From k) := by
  cases e with
  | literal l => cases l <;> exact simulates_pure trivial
  | name n => exact lookup_simulates allows n
  | member object n =>
    exact (evalWith_simulates allows hcall object).bind fun v hv => simulates_ofResult fun w => hv.member
  | item object key =>
    exact (evalWith_simulates allows hcall object).bind fun v hv =>
      (evalWith_simulates allows hcall key).bind fun key _ => simulates_ofResult fun w => hv.item
  | call function arguments keywords =>
    exact (evalWith_simulates allows hcall function).bind fun f hf =>
      (checkCallee_simulates function f).bind fun _ _ => (evalAll_simulates allows hcall arguments).bind fun vs hvs =>
        (evalKeywords_simulates allows hcall keywords [] .nil).bind fun es hes => apply_simulates hcall hf ⟨hvs, hes⟩
  | list elements =>
    exact (evalAll_simulates allows hcall elements).bind fun vs hvs => simulates_pure (Value.from_list.2 hvs)
  | dict entries =>
    exact (evalEntries_simulates allows hcall entries [] .nil).bind fun es hes =>
      simulates_pure (Value.from_dict.2 hes)
  | unary op operand =>
    exact (evalWith_simulates allows hcall operand).bind fun v _ => simulates_ofResult fun w => .applyUnary
  | binary op left right =>
    refine (evalWith_simulates allows hcall left).bind fun a ha => ?_
    have second := evalWith_simulates allows hcall right
    cases op with
    | and =>
      change Simulates R (if a.isTrue then evalWith call right else pure a)
        (if a.isTrue then evalWith call' right else pure a) _
      split
      · exact second
      · exact simulates_pure ha
    | or =>
      change Simulates R (if a.isTrue then pure a else evalWith call right)
        (if a.isTrue then pure a else evalWith call' right) _
      split
      · exact simulates_pure ha
      · exact second
    | _ => exact second.bind fun b hb => simulates_ofResult fun w => ha.applyBinary hb
  | conditional test value other =>
    refine (evalWith_simulates allows hcall test).bind fun t _ => ?_
    split
    · exact evalWith_simulates allows hcall value
    · exact evalWith_simulates allows hcall other

theorem evalAll_simulates (allows : Allows k R) (hcall : Covers k R call call') (es : List Expr) :
    Simulates R (evalAll call es) (evalAll call' es) fun vs => ∀ v ∈ vs, v.From k := by
  cases es with
  | nil => exact simulates_pure (by simp)
  | cons e es =>
    exact (evalWith_simulates allows hcall e).bind fun v hv => (evalAll_simulates allows hcall es).bind fun vs hvs =>
      simulates_pure (List.forall_mem_cons.2 ⟨hv, hvs⟩)

theorem evalKeywords_simulates (allows : Allows k R) (hcall : Covers k R call call') (es : List (Text × Expr))
    (acc : List (Text × Value)) (h : Entries.From k acc) :
    Simulates R (evalKeywords call es acc) (evalKeywords call' es acc) (Entries.From k) := by
  cases es with
  | nil => exact simulates_pure h
  | cons e es =>
    obtain ⟨n, e⟩ := e
    exact (evalWith_simulates allows hcall e).bind fun v hv =>
      evalKeywords_simulates allows hcall es _ (h.insert hv)

theorem evalEntries_simulates (allows : Allows k R) (hcall : Covers k R call call') (es : List (Expr × Expr))
    (acc : List (Text × Value)) (h : Entries.From k acc) :
    Simulates R (evalEntries call es acc) (evalEntries call' es acc) (Entries.From k) := by
  cases es with
  | nil => exact simulates_pure h
  | cons e es =>
    obtain ⟨key, e⟩ := e
    exact (evalWith_simulates allows hcall key).bind fun kv _ => (dictKey_simulates kv).bind fun name _ =>
      (evalWith_simulates allows hcall e).bind fun v hv => evalEntries_simulates allows hcall es _ (h.insert hv)

end

end Expr

/-! ## Functions -/

namespace Function

open Eval

variable {k : Stock} {R : Store → Store → Prop}

/-- The integers of a range are the same with more fuel, and nothing else is among them. -/
theorem rangeFrom_of_le {stop step : Int64} {acc vs : List Value} {fuel fuel' : Nat} {i : Int64} (le : fuel ≤ fuel')
    (h : ∀ v ∈ acc, v.From k) (r : Value.rangeFrom stop step acc fuel i = some vs) :
    Value.rangeFrom stop step acc fuel' i = some vs ∧ ∀ v ∈ vs, v.From k := by
  induction fuel generalizing acc i fuel' with
  | zero => cases r
  | succ fuel ih =>
    obtain ⟨fuel', rfl⟩ : ∃ n, fuel' = n + 1 := ⟨fuel' - 1, by omega⟩
    simp only [Value.rangeFrom] at r ⊢
    split
    · rename_i before
      rw [if_pos before] at r
      exact ih (by omega) (List.forall_mem_cons.2 ⟨Value.from_int i, h⟩) r
    · rename_i after
      rw [if_neg after] at r
      cases r
      exact ⟨rfl, by simpa using h⟩

theorem rangeBetween_simulates {fuel fuel' : Nat} (le : fuel ≤ fuel') (start stop step : Int64) :
    Simulates R (rangeBetween fuel start stop step) (rangeBetween fuel' start stop step) (Value.From k) := by
  unfold rangeBetween
  split
  · exact simulates_fail _
  · cases h : Value.range fuel start stop step with
    | none => exact simulates_outOfFuel _
    | some vs =>
      obtain ⟨same, made⟩ := rangeFrom_of_le le (by simp) h
      have more : Value.range fuel' start stop step = some vs := same
      rw [more]
      exact simulates_pure (Value.from_list.2 made)

theorem simulates_asInt (v : Value) : Simulates R (ofResult v.asInt) (ofResult v.asInt) fun _ => True :=
  simulates_ofResult fun _ _ => trivial

theorem rangeOf_simulates {fuel fuel' : Nat} (le : fuel ≤ fuel') (vs : List Value) :
    Simulates R (rangeOf fuel vs) (rangeOf fuel' vs) (Value.From k) := by
  unfold rangeOf
  split
  · exact (simulates_asInt _).bind fun b _ => rangeBetween_simulates le _ _ _
  · exact (simulates_asInt _).bind fun a _ => (simulates_asInt _).bind fun b _ => rangeBetween_simulates le _ _ _
  · exact (simulates_asInt _).bind fun a _ => (simulates_asInt _).bind fun b _ => (simulates_asInt _).bind fun c _ =>
      rangeBetween_simulates le _ _ _
  · exact simulates_fail _

theorem definedOf_simulates (allows : Allows k R) (vs : List Value) :
    Simulates R (definedOf vs) (definedOf vs) (Value.From k) := by
  unfold definedOf
  split
  · rename_i name
    intro s s' r
    change Agree R _ (.ok (Value.bool (s.context.isDefined name), s)) (.ok (Value.bool (s'.context.isDefined name), s'))
    rw [(allows.context r).1]
    exact .ok r (Value.from_bool _)
  · exact simulates_fail _

theorem lengthOf_from {vs : List Value} {v : Value} (r : lengthOf vs = .ok v) : v.From k := by
  unfold lengthOf at r
  split at r <;> cases r <;> trivial

theorem textOf_from {vs : List Value} {v : Value} (r : textOf vs = .ok v) : v.From k := by
  unfold textOf at r
  split at r <;> cases r <;> trivial

/-- The frame of a call binds the arguments, or the defaults evaluated now. -/
theorem bindParameters_simulates {evalDefault evalDefault' : Expression → Eval Value} {keywords : List (Text × Value)}
    (hdefault : ∀ e, Simulates R (evalDefault e) (evalDefault' e) (Value.From k)) (hk : Entries.From k keywords)
    (ps : List Parameter) (vs : List Value) (frame : Frame) (hvs : ∀ v ∈ vs, v.From k) (hf : Entries.From k frame) :
    Simulates R (bindParameters evalDefault keywords ps vs frame) (bindParameters evalDefault' keywords ps vs frame)
      (Entries.From k) := by
  induction ps generalizing vs frame with
  | nil => exact simulates_pure hf
  | cons p ps ih =>
    cases vs with
    | cons v vs =>
      obtain ⟨hv, hvs⟩ := List.forall_mem_cons.1 hvs
      exact ih vs _ hvs (Frame.from_bind hf hv)
    | nil =>
      have rest : ∀ v, v.From k → Simulates R (bindParameters evalDefault keywords ps [] (frame.bind p.name v))
          (bindParameters evalDefault' keywords ps [] (frame.bind p.name v)) (Entries.From k) :=
        fun v hv => ih [] _ (by simp) (Frame.from_bind hf hv)
      rw [bindParameters, bindParameters]
      split
      · rename_i v hv
        exact (simulates_pure (hk.find hv)).bind rest
      · exact (hdefault _).bind rest
      · exact (simulates_pure Value.from_none).bind rest

/-- Calling a function of the stock comes to the same from related stores. -/
theorem call_simulates (allows : Allows k R) {fuel fuel' : Nat} (le : fuel ≤ fuel') :
    Expr.Covers k R (Function.call fuel) (Function.call fuel') := by
  induction fuel generalizing fuel' with
  | zero => exact fun f a _ _ => simulates_outOfFuel _
  | succ fuel ih =>
    obtain ⟨fuel', rfl⟩ : ∃ n, fuel' = n + 1 := ⟨fuel' - 1, by omega⟩
    have le : fuel ≤ fuel' := by omega
    intro f a hf ha
    unfold Function.call
    split
    · exact simulates_ofResult fun _ => lengthOf_from
    · exact simulates_ofResult fun _ => textOf_from
    · exact rangeOf_simulates le _
    · exact definedOf_simulates allows _
    · rename_i signature body kind
      have hdefault : ∀ e : Expression,
          Simulates R (e.evalWith (Function.call fuel)) (e.evalWith (Function.call fuel')) (Value.From k) := by
        intro e
        unfold Expression.evalWith
        split
        · exact Expr.evalWith_simulates allows (ih le) _
        · exact simulates_stop trivial
      refine (bindParameters_simulates hdefault ha.keywords _ _ _ ha.positional .nil).bind fun frame hframe => ?_
      intro s s' r
      obtain ⟨same, inStock, related⟩ := allows.template r hf kind hframe
      simp only [Store.newStream, same] at related inStock ⊢
      exact .ok related inStock
    · rename_i matched kind
      unfold selectFrom
      split
      · split
        · intro s s' r
          obtain ⟨same, inStock, related⟩ := allows.select r hf kind
          simp only [Store.newStream, same] at related inStock ⊢
          exact .ok related inStock
        · exact simulates_fail _
      · exact simulates_fail _
    · rename_i number _
      intro s s' r
      simp only [allows.host r]
      exact simulates_ofResult (fun _ => Host.from_call ha) s s' r

end Function

/-! ## Expressions of templates -/

open Eval

variable {k : Stock} {R : Store → Store → Prop} {fuel fuel' : Nat}

/-- **Evaluation simulates itself**, with more fuel too, for every relation that allows for what
evaluation does to the store, and gives values made from the stock. -/
theorem Expression.eval_simulates (allows : Allows k R) (le : fuel ≤ fuel') (e : Expression) :
    Simulates R (e.eval fuel) (e.eval fuel') (Value.From k) := by
  unfold Expression.eval Expression.evalWith
  split
  · exact Expr.evalWith_simulates allows (Function.call_simulates allows le) _
  · exact simulates_stop trivial

section

variable (each : ∀ e : Expression, Simulates R (e.eval fuel) (e.eval fuel') (Value.From k))
include each

theorem Attribute.evalFragments_simulates (fs : List Fragment) :
    Simulates R (evalFragments fuel fs) (evalFragments fuel' fs) fun _ => True := by
  induction fs with
  | nil => exact simulates_pure trivial
  | cons f fs ih =>
    cases f with
    | literal t => exact ih.bind fun rest _ => simulates_pure trivial
    | expression e => exact (each e).bind fun v _ => ih.bind fun rest _ => simulates_pure trivial

theorem Attribute.eval_simulates (a : Attribute) : Simulates R (a.eval fuel) (a.eval fuel') fun _ => True := by
  unfold Attribute.eval
  split
  · exact simulates_pure trivial
  · exact (evalFragments_simulates each _).bind fun t? _ => simulates_pure trivial

/-- Attributes simulate themselves if expressions do. -/
theorem Attributes.simulates_of_expressions (as : Attributes) :
    Simulates R (Attributes.eval fuel as) (Attributes.eval fuel' as) fun _ => True := by
  induction as with
  | nil => exact simulates_pure trivial
  | cons a as ih => exact (a.eval_simulates each).bind fun a? _ => ih.bind fun rest _ => simulates_pure trivial

end

theorem Attributes.eval_simulates (allows : Allows k R) (le : fuel ≤ fuel') (as : Attributes) :
    Simulates R (Attributes.eval fuel as) (Attributes.eval fuel' as) fun _ => True :=
  as.simulates_of_expressions fun e => e.eval_simulates allows le

end Stencil
