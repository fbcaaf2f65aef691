import Stencil.Proofs.Expr.Embedded

/-!
# Arguments of calls

What a call is given: values, and direct calls that are arguments themselves (`Argument`). Such a call is computed from nothing
but the bodies of its functions (`Argument.eval`), in a store of its own. Where an expression of a template makes the call
(`Argument.Of`), the streams of the call come to lie among others, made before and in between (`Embedding.move`), and it comes to
the same there (`Argument.eval_follows`).
-/

namespace Stencil

/-- What a call is given as an argument. -/
inductive Argument where
  | value (v : Value)
  | call (f : Function) (positional : List Argument) (keywords : List (Text × Argument))

namespace Argument

mutual

/-- The value of an argument: its calls are made. -/
def eval (k : Nat) : Argument → Eval Value
  | value v => pure v
  | call f positional keywords => do
    let vs ← evalAll k positional
    let es ← evalKeywords k keywords []
    Function.call k f ⟨vs, es⟩

def evalAll (k : Nat) : List Argument → Eval (List Value)
  | [] => pure []
  | a :: as => do
    let v ← eval k a
    let vs ← evalAll k as
    return v :: vs

def evalKeywords (k : Nat) : List (Text × Argument) → List (Text × Value) → Eval (List (Text × Value))
  | [], acc => pure acc
  | (n, a) :: as, acc => do
    let v ← eval k a
    evalKeywords k as (Entries.insert n v acc)

end

section

variable (spared : Event → Prop) (captured : BodyId → Option (List Event))

mutual

/-- The functions are closed, and the values have no streams. -/
def Closed : Argument → Prop
  | value v => v.From ⟨Function.Closed spared captured, fun _ => False⟩
  | call f positional keywords => f.Closed spared captured ∧ AllClosed positional ∧ KeywordsClosed keywords

def AllClosed : List Argument → Prop
  | [] => True
  | a :: as => a.Closed ∧ AllClosed as

def KeywordsClosed : List (Text × Argument) → Prop
  | [] => True
  | (_, a) :: as => a.Closed ∧ KeywordsClosed as

end

end

mutual

/-- The argument is what an expression stands for in a store: a value that it has there, or a call that it makes. -/
def Of (k : Nat) : Argument → Expr → Store → Prop
  | value v, e, s => ∃ t, e.evalWith (Function.call k) s = .ok (v, t)
  | call f positional keywords, .call callee es ks, s => ∃ t, callee.evalWith (Function.call k) s = .ok (.function f, t) ∧
      AllOf k positional es t ∧ ∀ vs r, Expr.evalAll (Function.call k) es t = .ok (vs, r) → KeywordsOf k keywords ks r
  | call .., _, _ => False

def AllOf (k : Nat) : List Argument → List Expr → Store → Prop
  | [], es, _ => es = []
  | _ :: _, [], _ => False
  | a :: as, e :: es, s => a.Of k e s ∧ ∀ v t, e.evalWith (Function.call k) s = .ok (v, t) → AllOf k as es t

def KeywordsOf (k : Nat) : List (Text × Argument) → List (Text × Expr) → Store → Prop
  | [], es, _ => es = []
  | _ :: _, [], _ => False
  | (n, a) :: as, (m, e) :: es, s => n = m ∧ a.Of k e s ∧
      ∀ v t, e.evalWith (Function.call k) s = .ok (v, t) → KeywordsOf k as es t

end

end Argument

/-! ## Among other streams -/

namespace Embedding

/-- The embedding into another store. -/
def move (w : Embedding) (ρ : Nat → Nat) (different : ρ.Injective) (outer : Context) : Embedding :=
  { w with number := ρ, different, outer }

variable {w : Embedding} {c s t : Store} {k n : Nat}

/-- The function numbers the streams that there are as the embedding does, and none lower than it does. -/
structure Renumbers (w : Embedding) (size : Nat) (ρ : Nat → Nat) : Prop where
  same : ∀ id < size, ρ id = w.number id
  above : ∀ n, (∀ id, n ≤ w.number id) → ∀ id, n ≤ ρ id

theorem Renumbers.refl (w : Embedding) (n : Nat) : Renumbers w n w.number := ⟨fun _ _ => rfl, fun _ h => h⟩

theorem Renumbers.trans {ρ ρ' : Nat → Nat} {different : ρ.Injective} {outer : Context} {m : Nat}
    (h : Renumbers w n ρ) (more : n ≤ m)
    (h' : Renumbers (w.move ρ different outer) m ρ') : Renumbers w n ρ' where
  same id known := (h'.same id (Nat.lt_of_lt_of_le known more)).trans (h.same id known)
  above n low := h'.above n (h.above n low)

/-- Numbers the first streams as before, and those after them from `next` on. -/
def renumber (number : Nat → Nat) (size next id : Nat) : Nat := if id < size then number id else id - size + next

section

variable {number : Nat → Nat} {size next id : Nat}

theorem renumber_early (known : id < size) : renumber number size next id = number id := if_pos known

theorem renumber_late (new : ¬ id < size) : renumber number size next id = id - size + next := if_neg new

theorem renumber_injective (different : number.Injective) (below : ∀ id < size, number id < next) :
    (renumber number size next).Injective := by
  intro a b same
  by_cases ha : a < size <;> by_cases hb : b < size
  · rw [renumber_early ha, renumber_early hb] at same
    exact different same
  · rw [renumber_early ha, renumber_late hb] at same
    have := below a ha
    omega
  · rw [renumber_late ha, renumber_early hb] at same
    have := below b hb
    omega
  · rw [renumber_late ha, renumber_late hb] at same
    omega

end

theorem Holds.renumbers (h : w.Holds [] c s) {next : Nat} (more : s.replays.size ≤ next) :
    Renumbers w c.replays.size (renumber w.number c.replays.size next) where
  same _ := renumber_early
  above n low id := by
    by_cases known : id < c.replays.size
    · rw [renumber_early known]
      exact low id
    · have := low c.replays.size
      rw [h.number_size] at this
      rw [renumber_late known]
      omega

/-- Before anything is read, the store of the call lies inside of every store that still has its streams. -/
theorem Holds.move (h : w.Holds [] c s) (more : s.replays.size ≤ t.replays.size)
    (kept : ∀ id < c.replays.size, t.replay (w.number id) = s.replay (w.number id))
    (host : t.host = w.host) (bodies : ∀ b es, w.captured b = some es → t.captured? b = some es) :
    ∃ (ρ : Nat → Nat) (different : ρ.Injective), Renumbers w c.replays.size ρ ∧
      (w.move ρ different t.context).Holds [] c t := by
  have different : (renumber w.number c.replays.size t.replays.size).Injective :=
    renumber_injective w.different fun _ known => Nat.lt_of_lt_of_le (h.number_lt known) more
  refine ⟨_, different, h.renumbers more, h.here, rfl, ⟨h.host.1, host⟩, .nil, fun id known idle => ?_, fun n => ?_,
    fun b es captured => ⟨(h.captured b es captured).1, bodies b es captured⟩⟩
  · have pending := h.idle id known idle
    change (w.move _ different t.context).Idle [] id (c.replay id) (t.replay (renumber w.number c.replays.size t.replays.size id))
    rw [renumber_early known, kept id known]
    generalize c.replay id = r, s.replay (w.number id) = r' at pending
    cases pending with
    | finished => exact .finished
    | @waiting frame es made closed =>
      have same : Entries.rename w.number frame = Entries.rename (renumber w.number c.replays.size t.replays.size) frame :=
        Entries.rename_congr (k := w.pending [] id) (fun _ before => (renumber_early (Nat.lt_trans before.1 known)).symm) made
      rw [same]
      exact .waiting (w := w.move _ different t.context) made closed
  · change renumber w.number c.replays.size t.replays.size (c.replays.size + n) = t.replays.size + n
    rw [renumber_late (by omega)]
    omega

/-- A computation of the call, and one there that comes to the same, maybe with other streams made on the way. -/
inductive Follows {α β : Type} (w : Embedding) (n : Nat) (V : (Nat → Nat) → Nat → α → β → Prop) :
    Except Stop (α × Store) → Except Stop (β × Store) → Prop
  | error (why : Stop) : Follows w n V (.error why) (.error why)
  | ok {a : α} {b : β} {c s : Store} {ρ : Nat → Nat} {different : ρ.Injective} (renumbers : Renumbers w n ρ)
      (holds : (w.move ρ different w.outer).Holds [] c s) (more : n ≤ c.replays.size) (value : V ρ c.replays.size a b) :
      Follows w n V (.ok (a, c)) (.ok (b, s))

variable {α β γ δ : Type} {V : (Nat → Nat) → Nat → α → β → Prop} {V' : (Nat → Nat) → Nat → γ → δ → Prop}

theorem Follows.after {m : Nat} {ρ : Nat → Nat} {different : ρ.Injective} {x : Except Stop (α × Store)}
    {y : Except Stop (β × Store)}
    (renumbers : Renumbers w n ρ) (more : n ≤ m) (h : Follows (w.move ρ different w.outer) m V x y) : Follows w n V x y := by
  cases h with
  | error => exact .error _
  | ok later holds further value => exact .ok (renumbers.trans more later) holds (Nat.le_trans more further) value

theorem Follows.bind {m : Eval α} {m' : Eval β} {f : α → Eval γ} {f' : β → Eval δ} (first : Follows w n V (m c) (m' s))
    (next : ∀ ρ different a b d t, Renumbers w n ρ → (w.move ρ different w.outer).Holds [] d t → n ≤ d.replays.size →
      V ρ d.replays.size a b → m' s = .ok (b, t) → Follows (w.move ρ different w.outer) d.replays.size V' (f a d) (f' b t)) :
    Follows w n V' ((m >>= f) c) ((m' >>= f') s) := by
  change Follows w n V' ((m c).bind fun p => f p.1 p.2) ((m' s).bind fun p => f' p.1 p.2)
  generalize m c = x, there : m' s = y at first
  cases first with
  | error => exact .error _
  | @ok a b d t ρ different renumbers holds more value =>
    exact .after renumbers more (next ρ different a b d t renumbers holds more value there)

/-- What is computed without making streams. -/
theorem Follows.pure {a : α} {b : β} (holds : w.Holds [] c s) (more : n ≤ c.replays.size)
    (value : V w.number c.replays.size a b) :
    Follows w n V (.ok (a, c)) (.ok (b, s)) := by
  have itself : w.move w.number w.different w.outer = w := rfl
  rw [← itself] at holds
  exact .ok (.refl w n) holds more value

/-- What comes to the same with the streams numbered as they are. -/
theorem Follows.of_agree {x : Except Stop (α × Store)} {y : Except Stop (β × Store)}
    (h : Agree w [] (fun size a b => n ≤ size ∧ V w.number size a b) x y) : Follows w n V x y := by
  cases h with
  | error => exact .error _
  | ok holds value => exact .pure holds value.1 value.2

/-- An expression of the caller is computed, which makes any streams. -/
theorem Holds.computed (h : w.Holds [] c s) (made : s.Made t) : ∃ (ρ : Nat → Nat) (different : ρ.Injective),
    Renumbers w c.replays.size ρ ∧ (w.move ρ different w.outer).Holds [] c t := by
  obtain ⟨only, rs, replays, -⟩ := made
  have context : t.context = w.outer := by rw [only]; exact h.there
  rw [← context]
  refine h.move (by simp [replays]) (fun id known => ?_) (by rw [only]; exact h.host.2) fun b es captured => ?_
  · have := h.number_lt known
    simp [Store.replay, replays, Array.getElem?_append_left this]
  · have there := (h.captured b es captured).2
    rw [only]
    exact there

/-! ## Arguments here and there -/

/-- The value there is the value here with the numbers that its streams have there. -/
def Valued (w : Embedding) (ρ : Nat → Nat) (size : Nat) (v v' : Value) : Prop :=
  v' = v.rename ρ ∧ v.From (w.stock [] size)

def AllValued (w : Embedding) (ρ : Nat → Nat) (size : Nat) (vs vs' : List Value) : Prop :=
  vs' = vs.map (Value.rename ρ) ∧ ∀ v ∈ vs, v.From (w.stock [] size)

def EntriesValued (w : Embedding) (ρ : Nat → Nat) (size : Nat) (es es' : List (Text × Value)) : Prop :=
  es' = Entries.rename ρ es ∧ Entries.From (w.stock [] size) es

section

variable {ρ : Nat → Nat} {m : Nat} (renumbers : Renumbers w n ρ) (more : n ≤ m)

include renumbers more

theorem Valued.later {v v' : Value} (h : Valued w w.number n v v') : Valued w ρ m v v' :=
  ⟨h.1.trans (Value.rename_congr (k := w.stock [] n) (fun id known => (renumbers.same id known.2).symm) v h.2),
    h.2.mono (stock_le more)⟩

theorem EntriesValued.later {es es' : List (Text × Value)} (h : EntriesValued w w.number n es es') :
    EntriesValued w ρ m es es' :=
  ⟨h.1.trans (Entries.rename_congr (k := w.stock [] n) (fun id known => (renumbers.same id known.2).symm) h.2),
    h.2.mono (stock_le more)⟩

theorem AllValued.later {vs vs' : List Value} (h : AllValued w w.number n vs vs') : AllValued w ρ m vs vs' :=
  ⟨h.1.trans (List.map_congr_left fun v hv =>
    Value.rename_congr (k := w.stock [] n) (fun id known => (renumbers.same id known.2).symm) v (h.2 v hv)),
    fun v hv => (h.2 v hv).mono (stock_le more)⟩

end

end Embedding

open Stencil.Embedding

theorem Expr.evalWith_made {k : Nat} {e : Expr} {v : Value} {s t : Store} (r : e.evalWith (Function.call k) s = .ok (v, t)) :
    s.Made t :=
  ((evalWith_simulates (allows_made s) (Function.call_simulates (allows_made s) (Nat.le_refl k)) e).keeps (.refl s) r).1

namespace Argument

variable {w : Embedding} {c s t : Store}

mutual

/-- **An argument comes to the same where it is computed.** -/
theorem eval_follows (k : Nat) (a : Argument) {w : Embedding} {c s : Store} {e : Expr} (closed : a.Closed w.spared w.captured)
    (of : a.Of k e s) (holds : w.Holds [] c s) :
    w.Follows c.replays.size w.Valued (a.eval k c) (e.evalWith (Function.call k) s) := by
  cases a with
  | value v =>
    obtain ⟨t, computed⟩ := of
    obtain ⟨ρ, different, renumbers, holds⟩ := holds.computed (Expr.evalWith_made computed)
    rw [computed]
    have streamless : (⟨Function.Closed w.spared w.captured, fun _ => False⟩ : Stock) ≤ w.stock [] c.replays.size :=
      ⟨fun _ h => h, fun _ h => h.elim⟩
    exact .ok renumbers holds (Nat.le_refl _) ⟨(Value.rename_of_from (fun _ => id) v closed).symm, closed.mono streamless⟩
  | call f positional keywords =>
    cases e with
    | call callee es ks =>
      obtain ⟨t, computed, positionals, named⟩ := of
      obtain ⟨closed, closeds, closedNamed⟩ := closed
      obtain ⟨ρ, different, renumbers, holds⟩ := holds.computed (Expr.evalWith_made computed)
      have checked : Expr.checkCallee callee (.function f) t = .ok ((), t) := by cases callee <;> rfl
      rw [Expr.evalWith, Eval.bind_of_ok computed, Eval.bind_of_ok checked, Argument.eval]
      refine .after renumbers (Nat.le_refl _)
        (.bind (evalAll_follows (w := w.move ρ different w.outer) k positional closeds positionals holds) ?_)
      intro ρ₁ different₁ vs vs' d t₁ renumbers₁ holds more values computed
      refine .bind (evalKeywords_follows (w := (w.move ρ different w.outer).move ρ₁ different₁ w.outer) k keywords closedNamed
        (named vs' t₁ computed) holds [] [] ⟨rfl, .nil⟩) ?_
      intro ρ₂ different₂ entries entries' d₂ t₂ renumbers₂ holds more₂ valued _
      obtain ⟨rfl, made⟩ := AllValued.later renumbers₂ more₂ values
      have called := Function.call_mirrored
        (w := ((w.move ρ different w.outer).move ρ₁ different₁ w.outer).move ρ₂ different₂ w.outer)
        (l := []) k d₂.replays.size f ⟨vs, entries⟩ ⟨_, entries'⟩ closed ⟨rfl, made⟩ valued d₂ t₂ holds (Nat.le_refl _)
      exact .of_agree called
    | _ => exact of.elim

theorem evalAll_follows (k : Nat) (as : List Argument) {w : Embedding} {c s : Store} {es : List Expr}
    (closed : AllClosed w.spared w.captured as) (of : AllOf k as es s) (holds : w.Holds [] c s) :
    w.Follows c.replays.size w.AllValued (evalAll k as c) (Expr.evalAll (Function.call k) es s) := by
  cases as with
  | nil =>
    obtain rfl : es = [] := of
    exact .pure holds (Nat.le_refl _) ⟨rfl, by simp⟩
  | cons a as =>
    cases es with
    | nil => exact of.elim
    | cons e es =>
      obtain ⟨first, others⟩ := of
      rw [Argument.evalAll, Expr.evalAll]
      refine .bind (eval_follows k a closed.1 first holds) ?_
      intro ρ different v v' d t renumbers holds more value computed
      refine .bind (evalAll_follows (w := w.move ρ different w.outer) k as closed.2 (others v' t computed) holds) ?_
      intro ρ₁ different₁ vs vs' d₁ t₁ renumbers₁ holds more₁ values _
      obtain ⟨rfl, here⟩ := Valued.later renumbers₁ more₁ value
      obtain ⟨rfl, made⟩ := values
      exact .pure holds (Nat.le_refl _) ⟨rfl, List.forall_mem_cons.2 ⟨here, made⟩⟩

theorem evalKeywords_follows (k : Nat) (as : List (Text × Argument)) {w : Embedding} {c s : Store} {es : List (Text × Expr)}
    (closed : KeywordsClosed w.spared w.captured as) (of : KeywordsOf k as es s) (holds : w.Holds [] c s)
    (acc acc' : List (Text × Value)) (valued : w.EntriesValued w.number c.replays.size acc acc') :
    w.Follows c.replays.size w.EntriesValued (evalKeywords k as acc c) (Expr.evalKeywords (Function.call k) es acc' s) := by
  cases as with
  | nil =>
    obtain rfl : es = [] := of
    exact .pure holds (Nat.le_refl _) valued
  | cons a as =>
    cases es with
    | nil => exact of.elim
    | cons e es =>
      obtain ⟨n, a⟩ := a
      obtain ⟨_, e⟩ := e
      obtain ⟨rfl, first, others⟩ := of
      rw [Argument.evalKeywords, Expr.evalKeywords]
      refine .bind (eval_follows k a closed.1 first holds) ?_
      intro ρ different v v' d t renumbers holds more value computed
      obtain ⟨rfl, made⟩ := EntriesValued.later renumbers more valued
      obtain ⟨rfl, here⟩ := value
      exact evalKeywords_follows (w := w.move ρ different w.outer) k as closed.2 (others _ t computed) holds _ _
        ⟨Entries.insert_rename n v acc, made.insert here⟩

end

end Argument

/-! ## Parameters -/

/-- What a parameter takes when there is an argument at its place or none: that argument, else the one of its name, else its
default, computed with the frames of the caller, else None. -/
def Parameter.Takes (k : Nat) (keywords : List (Text × Value)) (x : Context) (p : Parameter)
    (given? : Option Value) (v : Value) :
    Prop :=
  match given?, Entries.find? p.name keywords, p.default? with
  | some given, _, _ => v = given
  | none, some given, _ => v = given
  | none, none, some e => ∃ s t, s.context = x ∧ e.eval k s = .ok (v, t)
  | none, none, none => v = .none

/-- The values bind the parameters, in order. -/
def Signature.Binds (k : Nat) (a : Arguments) (x : Context) (ps : List Parameter) (vs : List Value) : Prop :=
  vs.length = ps.length ∧ ∀ (i : Nat) (p : Parameter) (v : Value), ps[i]? = some p → vs[i]? = some v →
    p.Takes k a.keywords x a.positional[i]? v

/-- A default that is needed fails. -/
def Signature.Fails (k : Nat) (a : Arguments) (x : Context) (ps : List Parameter) (why : Stop) : Prop :=
  ∃ (i : Nat) (p : Parameter) (e : Expression) (s : Store), ps[i]? = some p ∧ a.positional[i]? = none ∧
    Entries.find? p.name a.keywords = none ∧ p.default? = some e ∧ s.context = x ∧ e.eval k s = .error why

theorem Frame.bind_new {frame : Frame} {name : Text} (v : Value) (new : name ∉ frame.map (·.1)) :
    frame.bind name v = frame ++ [(name, v)] := by
  induction frame with
  | nil => rfl
  | cons e es ih =>
    obtain ⟨other, others⟩ := not_or.1 (List.mem_cons.not.1 new)
    rw [bind, if_neg (by simpa using Ne.symm other), ih others]
    rfl

namespace Function

variable {k : Nat} {keywords : List (Text × Value)}

/-- What binding parameters comes to. -/
def Bound (k : Nat) (a : Arguments) (ps : List Parameter) (frame : Frame) (s : Store) : Except Stop (Frame × Store) → Prop
  | .ok (bound, t) => t.context = s.context ∧ t.bodies = s.bodies ∧
      ∃ values, Signature.Binds k a s.context ps values ∧ bound = frame ++ (ps.map (·.name)).zip values
  | .error why => Signature.Fails k a s.context ps why

/-- The first parameter has been bound. -/
theorem Bound.cons {p : Parameter} {ps : List Parameter} {vs : List Value} {frame : Frame} {s t : Store} {v : Value}
    {r : Except Stop (Frame × Store)} (takes : p.Takes k keywords s.context vs.head? v) (context : t.context = s.context)
    (bodies : t.bodies = s.bodies) (h : Bound k ⟨vs.tail, keywords⟩ ps (frame ++ [(p.name, v)]) t r) :
    Bound k ⟨vs, keywords⟩ (p :: ps) frame s r := by
  have later (i : Nat) : vs[i + 1]? = vs.tail[i]? := by cases vs <;> simp
  cases r with
  | ok bound =>
    obtain ⟨context', bodies', values, ⟨length, binds⟩, same⟩ := h
    refine ⟨context'.trans context, bodies'.trans bodies, v :: values,
      ⟨by simp [length], fun i q x param value => ?_⟩, by simp [same]⟩
    cases i with
    | zero =>
      cases param
      cases value
      rwa [List.head?_eq_getElem?] at takes
    | succ i =>
      rw [context] at binds
      exact later i ▸ binds i q x param value
  | error why =>
    obtain ⟨i, q, e, r, param, positional, rest⟩ := h
    rw [context] at rest
    exact ⟨i + 1, q, e, r, param, (later i).trans positional, rest⟩

/-- Parameters with different names are bound each once, in order. -/
theorem bindParameters_bound (ps : List Parameter) (vs : List Value) (frame : Frame) (s : Store)
    (different : (frame.map (·.1) ++ ps.map (·.name)).Nodup) :
    Bound k ⟨vs, keywords⟩ ps frame s (bindParameters (Expression.evalWith (call k)) keywords ps vs frame s) := by
  induction ps generalizing vs frame s with
  | nil => exact ⟨rfl, rfl, [], ⟨rfl, by simp⟩, by simp⟩
  | cons p ps ih =>
    have new : p.name ∉ frame.map (·.1) := fun mem =>
      (List.nodup_append.1 different).2.2 _ mem _ (by simp) rfl
    have next (v : Value) (t : Store) (takes : p.Takes k keywords s.context vs.head? v) (context : t.context = s.context)
        (bodies : t.bodies = s.bodies) : Bound k ⟨vs, keywords⟩ (p :: ps) frame s
          (bindParameters (Expression.evalWith (call k)) keywords ps vs.tail (frame.bind p.name v) t) := by
      rw [Frame.bind_new v new]
      exact .cons takes context bodies (ih vs.tail _ t (by simpa using different))
    cases vs with
    | cons v vs => exact next v s rfl rfl rfl
    | nil =>
      rw [bindParameters]
      cases found : Entries.find? p.name keywords with
      | some v => exact next v s (by simp [Parameter.Takes, found]) rfl rfl
      | none =>
        cases default : p.default? with
        | none => exact next .none s (by simp [Parameter.Takes, found, default]) rfl rfl
        | some e =>
          cases computed : e.eval k s with
          | error why =>
            change Bound _ _ _ _ _ ((e.eval k s).bind _)
            rw [computed]
            exact ⟨0, p, e, s, rfl, rfl, found, default, rfl, computed⟩
          | ok r =>
            obtain ⟨v, t⟩ := r
            have made := Expression.eval_made computed
            change Bound _ _ _ _ _ ((e.eval k >>= _) s)
            rw [Eval.bind_of_ok computed]
            exact next v t (by simpa [Parameter.Takes, found, default] using ⟨s, rfl, t, computed⟩)
              (by rw [made.only]) (by rw [made.only])

/-- **A call binds exactly the parameters**, and its result is a stream that yields the body in their frame; it fails only if a
default that is needed does. -/
theorem call_binds (k id : Nat) (signature : Signature) (body : BodyId) (a : Arguments) (s : Store)
    (different : (signature.parameters.map (·.name)).Nodup) :
    match call (k + 1) ⟨id, .template signature body⟩ a s with
    | .ok (v, t) => ∃ values, Signature.Binds k a s.context signature.parameters values ∧ t.context = s.context ∧
        ∃ made, v = .stream made ∧
          t.replay made = .waiting ((signature.parameters.map (·.name)).zip values) (s.body body)
    | .error why => Signature.Fails k a s.context signature.parameters why := by
  have bound : Bound k a signature.parameters [] s
      (bindParameters (Expression.evalWith (call k)) a.keywords signature.parameters a.positional [] s) :=
    bindParameters_bound signature.parameters a.positional [] s different
  cases computed : bindParameters (Expression.evalWith (call k)) a.keywords signature.parameters a.positional [] s with
  | error why =>
    rw [computed] at bound
    have fails : call (k + 1) ⟨id, .template signature body⟩ a s = .error why := by
      rw [call]
      change (bindParameters (Expression.evalWith (call k)) a.keywords signature.parameters a.positional [] s).bind _ = _
      rw [computed]
      rfl
    rw [fails]
    exact bound
  | ok r =>
    obtain ⟨frame, t⟩ := r
    rw [computed] at bound
    obtain ⟨context, bodies, values, binds, rfl⟩ := bound
    rw [call]
    simp only
    rw [Eval.bind_of_ok computed]
    have made := Store.replay_newStream t
      (.waiting ((signature.parameters.map (·.name)).zip values) (t.body body)) t.replays.size
    rw [if_pos rfl] at made
    refine ⟨values, binds, context, t.replays.size, rfl, made.trans ?_⟩
    simp only [Store.body, Store.captured?, bodies]

end Function

end Stencil
