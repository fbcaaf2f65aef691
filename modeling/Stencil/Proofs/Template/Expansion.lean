import Stencil.Proofs.Stream.Element

/-!
# Expanding is evaluating

The expansion of a template is a stack of streams: the source of the template's events, and above it
those of the elements with directives that are being expanded, each with its expressions computed
(`Stream.carry`). While the top one is read an event's whole meaning comes out before the next event is
asked for, so the frames of loops are in force exactly where the recursive evaluation has them. The
simulation goes by recursion over the events (`Stream.sound_event`).
-/

namespace Stencil

/-! ## Places of failures -/

/-- The fault without the place it is reported at. -/
def Fault.unplaced : Fault → Fault
  | .badSyntax e _ | .source ⟨.expression e, _⟩ => .badSyntax e none
  | .badEvaluation e _ | .evaluation e _ => .badEvaluation e none
  | f => f

/-- The failure without the place it is reported at. -/
def Stop.unplaced : Stop → Stop
  | .fault f => .fault f.unplaced
  | .outOfFuel => .outOfFuel

@[simp] theorem Stop.unplaced_placedAt (why : Stop) (p : Position) : (why.placedAt p).unplaced = why.unplaced := by
  cases why with
  | outOfFuel => rfl
  | fault f =>
    cases f with
    | badSyntax e p? | badEvaluation e p? => cases p? <;> rfl
    | _ => rfl

@[simp] theorem Stop.unplaced_locate (why : Stop) (filename : Text) (last : Position) :
    (why.locate filename last).unplaced = why.unplaced := by
  cases why with
  | outOfFuel => rfl
  | fault f => cases f <;> rfl

namespace Stream

/-! ## The stack of an expansion -/

/-- The events of `u` with their expressions computed, and then those of the streams below. -/
def nest (u : Stream) : List Stream → Stream
  | [] => .evaluated u
  | v :: vs => .append (.evaluated u) (nest v vs)

/-- The expansion of a template that reads `u`, the streams below it later. -/
def carry (t : Template) (last : Position) (u : Stream) (below : List Stream) : Stream :=
  .expanded t last (nest u below)

variable {k : Nat} {t : Template} {last : Position} {u v w : Stream} {below : List Stream} {s r : Store} {e : Event}

theorem step_nest {a : Advance} (below : List Stream) (h : step k (.evaluated u) s = a) (goesOn : ∀ v r, a ≠ .done v r) :
    step k (nest u below) s = match below with
      | [] => a
      | w :: ws => a.map (.append · (nest w ws)) := by
  cases below with
  | nil => exact h
  | cons w ws =>
    rw [nest, step, h]
    cases a with
    | done v r => exact absurd rfl (goesOn v r)
    | _ => rfl

theorem carry_skip (h : step k (.evaluated u) s = .skip (.evaluated v) r) :
    step k (carry t last u below) s = .skip (carry t last v below) r := by
  have next := step_nest below h (by simp)
  simp only [carry, step]
  rw [next]
  cases below <;> rfl

theorem carry_yield (h : step k (.evaluated u) s = .yield e (.evaluated v) r) (plain : ∀ p ds es, e ≠ .sub p ds es) :
    step k (carry t last u below) s = .yield e (carry t e.position v below) r := by
  have next := step_nest below h (by simp)
  simp only [carry, step]
  rw [next]
  cases e with
  | sub p ds es => exact absurd rfl (plain p ds es)
  | _ => cases below <;> rfl

theorem carry_fail {why : Stop} (last : Position) (below : List Stream) (h : step k (.evaluated u) s = .fail why v r) :
    ∃ w, step k (carry t last u below) s = .fail (why.locate t.filename last) w r := by
  have next := step_nest below h (by simp)
  simp only [carry, step]
  rw [next]
  cases below <;> exact ⟨_, rfl⟩

/-- An element with directives goes on top of the stack. -/
theorem carry_sub (plain : t.expansionFilters = [.evaluate]) {p : Position} {ds : List Directive} {es : List Event}
    (h : step k (.evaluated u) s = .yield (.sub p ds es) (.evaluated v) r) :
    step k (carry t last u below) s = .skip (carry t p (.directed ds.reverse [] (.ofEvents es)) (v :: below)) r := by
  have next := step_nest below h (by simp)
  simp only [carry, step]
  rw [next]
  cases below <;> simp only [stepExpanded, Advance.map, plain] <;> rfl

/-- A stream at its end is taken off the stack. -/
theorem carry_pop (h : step k u s = .done v r) (inert : Inert v) :
    step k (carry t last u (w :: below)) s = .skip (carry t last w below) r := by
  simp only [carry, nest, step, h, stepExpanded, inert r]
  rfl

theorem evaluated_yield (h : step k u s = .yield e v r) : step k (.evaluated u) s = evaluateEvent k e v r := by
  rw [step, h]

theorem evaluated_skip (h : step k u s = .skip v r) : step k (.evaluated u) s = .skip (.evaluated v) r := by
  rw [step, h]; rfl

theorem evaluated_fail {why : Stop} (h : step k u s = .fail why v r) :
    step k (.evaluated u) s = .fail why (.evaluated v) r := by
  rw [step, h]; rfl

/-- Skipped steps of the stream on top. -/
theorem carry_run (h : Run k u s [] v r) : Run k (carry t last u below) s [] (carry t last v below) r :=
  h.lift (fun u => carry t last u below) fun skips => carry_skip (evaluated_skip skips)

/-! ## Following a meaning -/

/-- The steps from `u` yield the events of the outcome and lead to a stream in `next`, with the store of
the outcome and the context `c`, or they fail as the outcome does. -/
def Follows (k : Nat) (u : Stream) (s : Store) (c : Context) (o : Outcome) (next : Stream → Prop) : Prop :=
  match o.result with
  | .ok r => r.context = c ∧ ∃ v, next v ∧ Run k u s o.events v r
  | .error why => ∃ v r why' w q, Run k u s o.events v r ∧ step k v r = .fail why' w q ∧ why'.unplaced = why.unplaced

/-- The expansion reads a stream that is final. -/
def Reads (t : Template) (below : List Stream) (final : Stream → Prop) (x : Stream) : Prop :=
  ∃ last v, final v ∧ x = carry t last v below

variable {c : Context} {o : Outcome} {next next' : Stream → Prop}

theorem Follows.after (before : Run k u s [] v r) (h : Follows k v r c o next) : Follows k u s c o next := by
  obtain ⟨es, result⟩ := o
  cases result with
  | ok q =>
    obtain ⟨context, w, hw, run⟩ := h
    exact ⟨context, w, hw, before.trans run⟩
  | error why =>
    obtain ⟨w, q, why', x, y, run, fails⟩ := h
    exact ⟨w, q, why', x, y, before.trans run, fails⟩

/-- Steps without events and without an effect come after. -/
theorem Follows.before (h : Follows k u s c o next) (onward : ∀ v r, next v → ∃ w, next' w ∧ Run k v r [] w r) :
    Follows k u s c o next' := by
  obtain ⟨es, result⟩ := o
  cases result with
  | ok q =>
    obtain ⟨context, v, hv, run⟩ := h
    obtain ⟨w, hw, run'⟩ := onward v q hv
    exact ⟨context, w, hw, by simpa using run.trans run'⟩
  | error why => exact h

/-- One meaning is followed, and then another one. -/
theorem Follows.andThen {m n : Meaning} (h : Follows k u s c (m r) next)
    (rest : ∀ v q, next v → q.context = c → Follows k v q c (n q) next') : Follows k u s c (m.andThen n r) next' := by
  simp only [Meaning.andThen]
  cases first : m r with
  | mk es result =>
    rw [first] at h
    cases result with
    | ok q =>
      obtain ⟨context, v, hv, run⟩ := h
      have rest := rest v q hv context
      simp only [Follows] at rest ⊢
      cases second : (n q).result with
      | ok x =>
        rw [second] at rest
        obtain ⟨context', w, hw, run'⟩ := rest
        exact ⟨context', w, hw, run.trans run'⟩
      | error why =>
        rw [second] at rest
        obtain ⟨w, x, why', y, z, run', fails⟩ := rest
        exact ⟨w, x, why', y, z, run.trans run', fails⟩
    | error why => exact h

/-- The next step fails as the outcome does. -/
theorem follows_fail {why why' : Stop} (h : step k (.evaluated u) s = .fail why' v r)
    (same : why'.unplaced = why.unplaced) : Follows k (carry t last u below) s c ⟨[], .error why⟩ next := by
  obtain ⟨w, fails⟩ := carry_fail (t := t) last below h
  exact ⟨_, _, _, w, r, .refl _ _, fails, by simpa using same⟩

/-! ## Pieces -/

/-- Once the stream on top yields the event of the piece, its meaning comes out, and the stack is what it
was. -/
def Sound (k : Nat) (t : Template) (p : Piece) : Prop :=
  ∀ {u v : Stream} {s r : Store} {last : Position} {below : List Stream}, r.context.From .streamless →
    Yields k u s p.event v r →
    Follows k (carry t last u below) s r.context (p.meaning r) (Reads t below (· = v))

theorem sound_leaf (e : Event) (plain : ∀ p ds es, e ≠ .sub p ds es) : Sound k t (.leaf k e) := by
  intro u v s r last below streamless ⟨u', s', run, yields⟩
  refine Follows.after (carry_run run) ?_
  have next := evaluated_yield yields
  change Follows _ _ _ _ (e.leafMeaning k r) _
  cases e with
  | startTag p name as =>
    simp only [Piece.leaf, evaluateEvent] at next
    simp only [Event.leafMeaning, Meaning.compute]
    cases computed : as.eval k r with
    | error why =>
      rw [computed] at next
      exact follows_fail next (Stop.unplaced_placedAt why p)
    | ok q =>
      obtain ⟨as', q⟩ := q
      rw [computed] at next
      obtain ⟨n, rfl⟩ := Attributes.eval_streamless streamless computed
      exact ⟨rfl, _, ⟨p, v, rfl, rfl⟩, .single (carry_yield next (by simp))⟩
  | expression p x =>
    simp only [Piece.leaf, evaluateEvent] at next
    simp only [Event.leafMeaning, Meaning.compute]
    cases computed : x.eval k r with
    | error why =>
      rw [computed] at next
      exact follows_fail next (Stop.unplaced_placedAt why p)
    | ok q =>
      obtain ⟨value, q⟩ := q
      rw [computed] at next
      obtain ⟨⟨n, rfl⟩, made⟩ := Expression.eval_streamless streamless computed
      have notStream : ∀ id, value ≠ .stream id := fun id same => (same ▸ made : Value.From .streamless (.stream id))
      dsimp only
      by_cases nothing : value.isNull = true
      · have skips : step k (.evaluated u') s' = .skip (.evaluated v) { r with nextFunction := n } := by
          rw [next]
          cases value with
          | undefined | none => rfl
          | _ => cases nothing
        rw [if_pos nothing]
        exact ⟨rfl, _, ⟨last, v, rfl, rfl⟩, .silent (carry_skip skips)⟩
      · have yields : step k (.evaluated u') s' =
            .yield (.text p value.toText) (.evaluated v) { r with nextFunction := n } := by
          rw [next]
          cases value with
          | stream id => exact absurd rfl (notStream id)
          | undefined | none => exact absurd rfl nothing
          | _ => rfl
        rw [if_neg nothing]
        exact ⟨rfl, _, ⟨p, v, rfl, rfl⟩, .single (carry_yield yields (by simp))⟩
  | sub p ds es => exact absurd rfl (plain p ds es)
  | _ => exact ⟨rfl, _, ⟨_, v, rfl, rfl⟩, .single (carry_yield next (by simp))⟩

/-- The stream yields the events one by one, whatever the store, and then it is a final one. -/
def Reading (k : Nat) (final : Stream → Prop) : Stream → List Event → Prop
  | u, [] => final u
  | u, e :: es => ∀ r, ∃ v, Yields k u r e v r ∧ Reading k final v es

theorem reading_of_delivers {es : List Event} (h : ∀ r, Delivers k u r es r) :
    Reading k (fun v => ∀ r, Finishes k v r r) u es := by
  induction es generalizing u with
  | nil => exact h
  | cons e es ih =>
    intro r
    obtain ⟨v, -, yields, rest⟩ := h r
    exact ⟨v, yields, ih rest⟩

/-- The meanings of the pieces come out one after the other. -/
theorem follows_pieces {ps : List Piece} (last : Position) (below : List Stream) (sound : ∀ p ∈ ps, Sound k t p) {final : Stream → Prop}
    (reading : Reading k final u (ps.map (·.event))) (streamless : s.context.From .streamless) :
    Follows k (carry t last u below) s s.context (Piece.meaningOf ps s) (Reads t below final) := by
  induction ps generalizing u s last with
  | nil => exact ⟨rfl, _, ⟨last, u, reading, rfl⟩, .refl _ _⟩
  | cons p ps ih =>
    obtain ⟨v, yields, rest⟩ := reading s
    refine (sound p List.mem_cons_self streamless yields).andThen ?_
    rintro x q ⟨last', _, rfl, rfl⟩ context
    have after := ih last' (fun p hp => sound p (List.mem_cons_of_mem _ hp)) rest (s := q) (context ▸ streamless)
    rwa [context] at after

/-- A stream that finishes is taken off the stack. -/
theorem run_finish (h : Finishes k u s r) :
    Run k (carry t last u (w :: below)) s [] (carry t last w below) r := by
  obtain ⟨u', s', v, run, done, inert⟩ := h
  exact (carry_run run).trans (.silent (carry_pop done inert))

/-- An element that is delivered comes out with its whole meaning and is taken off the stack. -/
theorem follows_delivered {ps : List Piece} (sound : ∀ p ∈ ps, Sound k t p) (h : Delivers k u s (ps.map (·.event)) r)
    (streamless : r.context.From .streamless) :
    Follows k (carry t last u (w :: below)) s r.context (Piece.meaningOf ps r) (Reads t below (· = w)) := by
  cases ps with
  | nil => exact ⟨rfl, _, ⟨last, w, rfl, rfl⟩, run_finish h⟩
  | cons p ps =>
    obtain ⟨v, -, yields, rest⟩ := h
    refine (sound p List.mem_cons_self streamless yields).andThen ?_
    rintro x q ⟨last', _, rfl, rfl⟩ context
    have after := follows_pieces (t := t) (s := q) last' (w :: below)
      (fun p hp => sound p (List.mem_cons_of_mem _ hp)) (reading_of_delivers rest) (context ▸ streamless)
    rw [context] at after
    refine after.before ?_
    rintro x q ⟨last'', v', finishes, rfl⟩
    exact ⟨_, ⟨last'', w, rfl, rfl⟩, run_finish (finishes q)⟩

end Stream

end Stencil
