import Stencil.Proofs.Stream.Frames
import Stencil.Proofs.Template.Expansion

/-!
# Elements with directives come out with their meaning

The cases of the simulation for what directives do: the test of an element, its rewriting, and its
loop.
-/

namespace Stencil

namespace Stream

variable {k : Nat} {t : Template} {last : Position} {u v w : Stream} {below : List Stream} {s r : Store}
  {ps : List Piece} {m : Eval (List Piece)} {targets : List Text}

/-! ## Loops -/

/-- In an iteration a loop yields its body. -/
theorem reading_body (targets : List Text) (items : List Value) (body? : Option (List Event)) (d : Nat) (u : Stream)
    (es : List Event) :
    Reading k (· = .looping targets items body? (some (d, [])) u) (.looping targets items body? (some (d, es)) u) es := by
  induction es with
  | nil => rfl
  | cons e es ih => exact fun r => ⟨_, ⟨_, _, .refl _ _, rfl⟩, ih⟩

theorem follows_iteration (sound : ∀ p ∈ ps, Sound k t p) {item : Value} (made : item.From .streamless)
    (items : List Value) (streamless : s.context.From .streamless) :
    Follows k (carry t last (.looping targets (item :: items) (some (ps.map (·.event))) none u) below) s s.context
      (Directive.iteration targets ps item s)
      (Reads t below (· = .looping targets items (some (ps.map (·.event))) none u)) := by
  have next : step k (.looping targets (item :: items) (some (ps.map (·.event))) none u) s =
      startIteration targets item items (some (ps.map (·.event))) u s := rfl
  unfold startIteration at next
  unfold Directive.iteration Meaning.compute
  cases bound : loopFrame targets item with
  | error e =>
    rw [bound] at next
    exact follows_fail (evaluated_fail next) rfl
  | ok frame =>
    rw [bound] at next
    refine Follows.after (.silent (carry_skip (evaluated_skip next))) ?_
    have pushed : (s.pushFrame frame).context.From .streamless := streamless.push (loopFrame_from made bound)
    have inner := follows_pieces (t := t) last below sound
      (reading_body targets items (some (ps.map (·.event))) (s.context.depth + 1) u _) pushed
    change Follows _ _ _ _ (Meaning.under frame (Piece.meaningOf ps) s) _
    unfold Meaning.under
    generalize Piece.meaningOf ps (s.pushFrame frame) = o at inner
    obtain ⟨es, result⟩ := o
    cases result with
    | error why => exact inner
    | ok q =>
      obtain ⟨context, _, ⟨last', _, rfl, rfl⟩, run⟩ := inner
      have released : q.releaseFrom (s.context.depth + 1) = { q with context := s.context } := by
        simp only [Store.releaseFrom, context, Store.pushFrame, Context.releaseFrom_push]
      have removes : step k (.looping targets items (some (ps.map (·.event))) (some (s.context.depth + 1, [])) u) q =
          .skip (.looping targets items (some (ps.map (·.event))) none u) { q with context := s.context } := by
        rw [← released]
        rfl
      have whole := run.trans (.silent (carry_skip (evaluated_skip removes)))
      rw [List.append_nil] at whole
      exact ⟨rfl, _, ⟨last', _, rfl, rfl⟩, whole⟩

theorem follows_iterations (targets : List Text) (last : Position) (below : List Stream) (sound : ∀ p ∈ ps, Sound k t p) {items : List Value}
    (made : ∀ v ∈ items, v.From .streamless) (streamless : s.context.From .streamless) :
    Follows k (carry t last (.looping targets items (some (ps.map (·.event))) none u) below) s s.context
      (Meaning.all (items.map (Directive.iteration targets ps)) s)
      (Reads t below (· = .looping targets [] (some (ps.map (·.event))) none u)) := by
  induction items generalizing s last with
  | nil => exact ⟨rfl, _, ⟨last, _, rfl, rfl⟩, .refl _ _⟩
  | cons item items ih =>
    obtain ⟨first, rest⟩ := List.forall_mem_cons.1 made
    refine (follows_iteration sound first items streamless).andThen ?_
    rintro _ q ⟨last', _, rfl, rfl⟩ context
    have after := ih (s := q) last' rest (context ▸ streamless)
    rwa [context] at after

/-- A loop reads its body at once. -/
theorem run_gathering (targets : List Text) (acc : List Event) (items : List Value) {es : List Event} (h : Delivers k u s es r) :
    ∃ v, Inert v ∧ Run k (.gathering targets items acc u) s []
      (.looping targets items (some (acc.reverse ++ es)) none v) r := by
  induction es generalizing u s acc with
  | nil =>
    obtain ⟨u', s', v, run, done, inert⟩ := h
    refine ⟨v, inert, (run.through (.gathering targets items acc)).trans (.silent ?_)⟩
    rw [step, done, List.append_nil]
  | cons e es ih =>
    obtain ⟨v, inert, ⟨u', s', run, yields⟩, rest⟩ := h
    have next : step k (.gathering targets items acc u') s' = .skip (.gathering targets items (e :: acc) v) r := by
      rw [step, yields]
    obtain ⟨w, inert, after⟩ := ih (e :: acc) (rest r)
    refine ⟨w, inert, ?_⟩
    simpa using ((run.through (.gathering targets items acc)).trans (.silent next)).trans after

/-- A list of an element's pieces that the computation gives is sound and comes in the same context. -/
def GivesSound (k : Nat) (t : Template) (m : Eval (List Piece)) : Prop :=
  ∀ {s r : Store} {ps : List Piece}, s.context.From .streamless → m s = .ok (ps, r) →
    r.context = s.context ∧ ∀ p ∈ ps, Sound k t p

/-- An element without a loop comes out with its meaning. -/
theorem follows_element (delivers : DeliversAll k u s (m s)) (sound : GivesSound k t m)
    (streamless : s.context.From .streamless) :
    Follows k (carry t last u (w :: below)) s s.context (Meaning.compute m Piece.meaningOf s) (Reads t below (· = w)) := by
  unfold Meaning.compute
  cases computed : m s with
  | error why =>
    rw [computed] at delivers
    obtain ⟨u', s', v, r, run, fails⟩ := delivers
    exact Follows.after (carry_run run) (follows_fail (evaluated_fail fails) rfl)
  | ok p =>
    obtain ⟨ps, r⟩ := p
    rw [computed] at delivers
    obtain ⟨context, sound⟩ := sound streamless computed
    rw [← context] at streamless ⊢
    exact follows_delivered sound delivers streamless

/-- A loop comes out with its meaning. -/
theorem follows_loop (last : Position) (targets : List Text) (items : Expression) (inert : Inert u) (delivers : ∀ s, DeliversAll k u s (m s))
    (sound : GivesSound k t m) (streamless : s.context.From .streamless) :
    Follows k (carry t last (.loop targets items u) (w :: below)) s s.context (Directive.repeated k targets items m s)
      (Reads t below (· = w)) := by
  have next : step k (.loop targets items u) s = startLoop k targets items u s := rfl
  unfold startLoop at next
  unfold Directive.repeated Meaning.compute
  cases value : items.eval k s with
  | error why =>
    rw [value] at next
    exact follows_fail (evaluated_fail next) rfl
  | ok p =>
    obtain ⟨v, r⟩ := p
    rw [value] at next
    obtain ⟨⟨n, rfl⟩, made⟩ := Expression.eval_streamless streamless value
    dsimp only at next ⊢
    by_cases nothing : v.isNull = true
    · rw [if_pos nothing] at next ⊢
      exact ⟨rfl, _, ⟨last, w, rfl, rfl⟩, .silent (carry_pop next inert)⟩
    · rw [if_neg nothing] at next ⊢
      cases listed : v.items with
      | error e =>
        rw [listed] at next
        exact follows_fail (evaluated_fail next) rfl
      | ok vs =>
        rw [listed] at next
        refine Follows.after (.silent (carry_skip (evaluated_skip next))) ?_
        change Follows _ _ _ _ (Meaning.compute m (fun ps => Meaning.all (vs.map (Directive.iteration targets ps)))
          { s with nextFunction := n }) _
        have delivers := delivers { s with nextFunction := n }
        unfold Meaning.compute
        cases computed : m { s with nextFunction := n } with
        | error why =>
          rw [computed] at delivers
          have fails : Fails k (.gathering targets vs [] u) { s with nextFunction := n } why :=
            delivers.through (.gathering targets vs []) fun fail => ⟨_, by rw [step, fail]⟩
          obtain ⟨u', s', v, r, run, fails⟩ := fails
          exact Follows.after (carry_run run) (follows_fail (evaluated_fail fails) rfl)
        | ok p =>
          obtain ⟨ps, r⟩ := p
          rw [computed] at delivers
          obtain ⟨context, sound⟩ := sound (s := { s with nextFunction := n }) streamless computed
          obtain ⟨x, inert, run⟩ := run_gathering targets [] vs delivers
          refine Follows.after (carry_run run) ?_
          have inner := follows_iterations (t := t) (u := x) (s := r) targets last (w :: below) sound (made.items listed) (context ▸ streamless)
          rw [context] at inner
          refine inner.before ?_
          rintro _ q ⟨last', _, rfl, rfl⟩
          exact ⟨_, ⟨last', w, rfl, rfl⟩, .silent (carry_pop (show step k _ q = .done _ q from rfl) inert)⟩

/-! ## Rewriting -/

theorem sound_filledWith (sound : ∀ p ∈ ps, Sound k t p) (x : Expression) :
    ∀ p ∈ Piece.filledWith k x ps, Sound k t p := by
  cases ps with
  | nil => simp [Piece.filledWith]
  | cons first rest =>
    intro p hp
    simp only [Piece.filledWith, List.mem_append, List.mem_cons, Option.mem_toList] at hp
    rcases hp with tag | rfl | end_
    · split at tag
      · rw [List.mem_singleton.1 tag]
        exact sound _ List.mem_cons_self
      · cases tag
    · exact sound_leaf _ (by simp)
    · exact sound p (List.mem_cons_of_mem _ (List.mem_of_getLast? end_))

theorem sound_replacedBy (x : Expression) (ps : List Piece) : ∀ p ∈ Piece.replacedBy k x ps, Sound k t p := by
  cases ps with
  | nil => simp [Piece.replacedBy]
  | cons first rest =>
    intro p hp
    rw [List.mem_singleton.1 hp]
    exact sound_leaf _ (by simp)

theorem sound_stripped (sound : ∀ p ∈ ps, Sound k t p) : ∀ p ∈ Piece.stripped ps, Sound k t p :=
  fun p hp => sound p (List.mem_of_mem_tail (List.dropLast_subset _ hp))

open Eval in
/-- Rewriting makes sound pieces of sound pieces. -/
theorem simulates_rewrite {R : Store → Store → Prop} (allows : Allows .streamless R) (d : Directive)
    (h : Simulates R m m fun ps => ∀ p ∈ ps, Sound k t p) :
    Simulates R (d.rewrite k m) (d.rewrite k m) fun ps => ∀ p ∈ ps, Sound k t p := by
  have evaluates (x : Expression) := x.eval_simulates allows (Nat.le_refl k)
  cases d with
  | replace x => exact h.bind fun ps _ => simulates_pure (sound_replacedBy x ps)
  | content x => exact h.bind fun ps sound => simulates_pure (sound_filledWith sound x)
  | attributes x =>
    refine h.bind fun ps sound => ?_
    unfold Piece.mergedWith
    split
    · rename_i p name as meaning rest
      have others : ∀ p ∈ rest, Sound k t p := fun p hp => sound p (List.mem_cons_of_mem _ hp)
      refine (evaluates x).bind fun v _ => ?_
      split
      · refine (simulates_ofResult fun _ _ => trivial).bind (Q := fun _ => True) fun as _ => simulates_pure ?_
        exact List.forall_mem_cons.2 ⟨sound_leaf _ (by simp), others⟩
      · exact simulates_pure sound
    · exact simulates_pure sound
  | strip test =>
    cases test with
    | none => exact h.bind fun ps sound => simulates_pure (sound_stripped sound)
    | some x =>
      refine (evaluates x).bind fun v _ => h.bind fun ps sound => simulates_pure ?_
      split
      · exact sound_stripped sound
      · exact sound
  | _ => exact h

theorem givesSound_rewriteAll (sound : ∀ p ∈ ps, Sound k t p) (ds : List Directive) :
    GivesSound k t (Directive.rewriteAll k ds ps) := by
  intro s r qs streamless computed
  have simulates : Eval.Simulates (Eval.Same fun q => ∃ n, q = { s with nextFunction := n })
      (Directive.rewriteAll k ds ps) (Directive.rewriteAll k ds ps) fun ps => ∀ p ∈ ps, Sound k t p := by
    clear computed
    induction ds with
    | nil => exact Eval.simulates_pure sound
    | cons d ds ih => exact simulates_rewrite (allows_streamless streamless) d ih
  obtain ⟨⟨n, rfl⟩, sound⟩ := simulates.keeps ⟨_, rfl⟩ computed
  exact ⟨rfl, sound⟩

theorem givesSound_nothing : GivesSound k t (pure []) := by
  rintro s r ps - ⟨⟩
  exact ⟨rfl, by simp⟩

/-! ## The directives of an element -/

end Stream

namespace Directive

/-- The directives that neither capture events nor are added by a host. -/
def isPlain (d : Directive) : Bool :=
  match d with
  | loop .. | condition _ => true
  | d => d.isRewriting

/-- The directives of an element are plain, and each has a rank of its own. -/
structure Ordered (ds : List Directive) : Prop where
  plain : ∀ d ∈ ds, d.isPlain = true
  sorted : ds.Pairwise (·.rank < ·.rank)

theorem Ordered.tail {d : Directive} {ds : List Directive} (h : Ordered (d :: ds)) :
    Ordered ds ∧ ∀ e ∈ ds, d.rank < e.rank :=
  ⟨⟨fun e he => h.plain e (List.mem_cons_of_mem _ he), (List.pairwise_cons.1 h.sorted).2⟩, (List.pairwise_cons.1 h.sorted).1⟩

theorem cases_of_plain {d : Directive} (plain : d.isPlain = true) :
    (∃ targets items, d = loop targets items) ∨ (∃ x, d = condition x) ∨ d.isRewriting = true ∧ 3 < d.rank := by
  cases d with
  | loop targets items => exact .inl ⟨_, _, rfl⟩
  | condition x => exact .inr (.inl ⟨_, rfl⟩)
  | replace | content | attributes | strip => exact .inr (.inr ⟨rfl, show 3 < _ from of_decide_eq_true rfl⟩)
  | _ => cases plain

theorem none_of_rewriting {ds : List Directive} (h : ∀ d ∈ ds, d.isRewriting = true) :
    loop? ds = none ∧ test? ds = none := by
  constructor
  all_goals
    refine List.findSome?_eq_none_iff.2 fun d hd => ?_
    have rewriting := h d hd
    cases d <;> first | rfl | cases rewriting

/-- The directives of an element are its loop, its test and then those that rewrite it. -/
structure Split (ds rest : List Directive) : Prop where
  rewriting : ∀ d ∈ rest, d.isRewriting = true
  same : ∀ k ps, rewriteAll k ds ps = rewriteAll k rest ps
  parts : ds = ((loop? ds).map fun p => loop p.1 p.2).toList ++ ((test? ds).map condition).toList ++ rest

theorem Split.of_rewriting {ds : List Directive} (h : ∀ d ∈ ds, d.isRewriting = true) : Split ds ds := by
  obtain ⟨noLoop, noTest⟩ := none_of_rewriting h
  exact ⟨h, fun _ _ => rfl, by rw [noLoop, noTest]; rfl⟩

/-- After the test, and after the loop, only rewriting directives come. -/
theorem Ordered.rewriting {ds : List Directive} (h : Ordered ds) (ranks : ∀ d ∈ ds, 3 < d.rank) :
    ∀ d ∈ ds, d.isRewriting = true := by
  intro d hd
  have above := ranks d hd
  rcases cases_of_plain (h.plain d hd) with ⟨targets, items, rfl⟩ | ⟨x, rfl⟩ | ⟨rewriting, -⟩
  · exact absurd (show 3 < 2 from above) (by decide)
  · exact absurd (show 3 < 3 from above) (by decide)
  · exact rewriting

theorem Ordered.split_test {ds : List Directive} (h : Ordered ds) (ranks : ∀ d ∈ ds, 2 < d.rank) :
    loop? ds = none ∧ ∃ rest, Split ds rest := by
  cases ds with
  | nil => exact ⟨rfl, [], Split.of_rewriting (by simp)⟩
  | cons d ds =>
    obtain ⟨ordered, later⟩ := h.tail
    rcases cases_of_plain (h.plain d List.mem_cons_self) with ⟨targets, items, rfl⟩ | ⟨x, rfl⟩ | ⟨first, above⟩
    · exact absurd (show 2 < 2 from ranks _ List.mem_cons_self) (by decide)
    · have rest := ordered.rewriting later
      have noLoop : loop? (.condition x :: ds) = none := (none_of_rewriting rest).1
      exact ⟨noLoop, ds, rest, fun _ _ => rfl, by rw [noLoop]; rfl⟩
    · have rest := ordered.rewriting fun e he => Nat.lt_trans above (later e he)
      have all : ∀ e ∈ d :: ds, e.isRewriting = true := List.forall_mem_cons.2 ⟨first, rest⟩
      exact ⟨(none_of_rewriting all).1, _, Split.of_rewriting all⟩

/-- Directives that are ordered are split into their parts. -/
theorem Ordered.split {ds : List Directive} (h : Ordered ds) : ∃ rest, Split ds rest := by
  cases ds with
  | nil => exact ⟨[], Split.of_rewriting (by simp)⟩
  | cons d ds =>
    obtain ⟨ordered, later⟩ := h.tail
    have beyond (first : 2 < d.rank) : ∃ rest, Split (d :: ds) rest :=
      (h.split_test (List.forall_mem_cons.2 ⟨first, fun e he => Nat.lt_trans first (later e he)⟩)).2
    rcases cases_of_plain (h.plain d List.mem_cons_self) with ⟨targets, items, rfl⟩ | ⟨x, rfl⟩ | ⟨-, above⟩
    · obtain ⟨noLoop, rest, split⟩ := ordered.split_test later
      refine ⟨rest, split.rewriting, split.same, ?_⟩
      have parts := split.parts
      rw [noLoop] at parts
      exact congrArg (loop targets items :: ·) parts
    · exact beyond (show 2 < 3 by decide)
    · exact beyond (Nat.lt_of_succ_lt above)

end Directive

namespace Stream

/-- Rewriting directives are applied one after the other, the one of the highest rank first. -/
theorem run_rewriting {ds : List Directive} (h : ∀ d ∈ ds, d.isRewriting = true) (rest : List Directive) (u : Stream)
    (s : Store) :
    Run k (.directed (ds.reverse ++ rest) [] u) s [] (.directed rest [] (ds.foldr Directive.wrap u)) s := by
  have applies {d : Directive} (rewriting : d.isRewriting = true) (rest : List Directive) (u : Stream) :
      step k (.directed (d :: rest) [] u) s = .skip (.directed rest [] (d.wrap u)) s := by
    cases d with
    | replace | content | attributes | strip => rfl
    | _ => cases rewriting
  induction ds generalizing rest with
  | nil => exact .refl _ _
  | cons d ds ih =>
    obtain ⟨first, others⟩ := List.forall_mem_cons.1 h
    have inner := ih others (d :: rest)
    rw [List.reverse_cons, List.append_assoc]
    exact inner.trans (.silent (applies first rest _))

/-- The test of an element is decided before the element is read. -/
theorem follows_tested {test? : Option Expression} {rest : List Directive} {f : Bool → Meaning} {next : Stream → Prop}
    (inert : Inert u) (streamless : s.context.From .streamless)
    (decided : ∀ (kept : Bool) (q : Store), q.context = s.context →
      Follows k (carry t last (.directed rest [] (if kept then u else .empty)) below) q s.context (f kept q) next) :
    Follows k (carry t last (.directed ((test?.map Directive.condition).toList ++ rest) [] u) below) s s.context
      (Meaning.compute (Directive.kept k test?) f s) next := by
  cases test? with
  | none => exact decided true s rfl
  | some x =>
    have applied : step k (.directed (.condition x :: rest) [] u) s = test k true x rest u s := rfl
    unfold test at applied
    have decides : Directive.kept k (some x) s = (x.eval k s).bind fun p => .ok (p.1.isTrue, p.2) := rfl
    unfold Meaning.compute
    rw [decides]
    cases value : x.eval k s with
    | error why =>
      rw [value] at applied
      exact follows_fail (evaluated_fail applied) rfl
    | ok p =>
      obtain ⟨v, q⟩ := p
      rw [value] at applied
      obtain ⟨⟨n, rfl⟩, -⟩ := Expression.eval_streamless streamless value
      refine Follows.after (.silent (carry_skip (evaluated_skip ?_))) (decided v.isTrue _ rfl)
      by_cases truth : v.isTrue = true
      · rw [if_pos truth]
        exact applied.trans (if_pos truth)
      · rw [if_neg truth]
        refine applied.trans ((if_neg truth).trans ?_)
        simp only [drop, proceed, inert _]

/-- A piece that is an element with directives is sound if the pieces of the element are. -/
theorem sound_sub (plain : t.expansionFilters = [.evaluate]) (p : Position) {ds : List Directive}
    (ordered : Directive.Ordered ds) (sound : ∀ p ∈ ps, Sound k t p) :
    Sound k t ⟨.sub p ds (ps.map (·.event)), Directive.meaning k ds ps⟩ := by
  intro u v s r last below streamless ⟨u', s', run, yields⟩
  refine Follows.after ((carry_run run).trans (.silent (carry_sub plain (evaluated_yield yields)))) ?_
  obtain ⟨rest, split⟩ := ordered.split
  have order : ds.reverse = rest.reverse ++ (((Directive.test? ds).map .condition).toList ++
      ((Directive.loop? ds).map fun p => .loop p.1 p.2).toList) := by
    have single {α : Type} (o : Option α) : o.toList.reverse = o.toList := by cases o <;> rfl
    conv_lhs => rw [split.parts]
    simp only [List.reverse_append, single]
  rw [order]
  refine Follows.after (carry_run (run_rewriting split.rewriting _ _ _)) ?_
  have inert : Inert (rest.foldr Directive.wrap (.ofEvents (ps.map (·.event)))) := inert_wrapAll rest _
  refine follows_tested inert streamless fun kept q context => ?_
  -- what is left of the element after its test, and what it is to deliver
  have delivers (q : Store) : DeliversAll k
      (if kept = true then rest.foldr Directive.wrap (.ofEvents (ps.map (·.event))) else .empty) q
      ((if kept = true then Directive.rewriteAll k ds ps else pure [] : Eval (List Piece)) q) := by
    cases kept with
    | true =>
      simp only [if_true, split.same]
      exact delivers_rewritten split.rewriting ps q
    | false => exact delivers_ofEvents [] q
  have gives : GivesSound k t (if kept = true then Directive.rewriteAll k ds ps else pure []) := by
    cases kept with
    | true => exact givesSound_rewriteAll sound ds
    | false => exact givesSound_nothing
  have inert' : Inert (if kept = true then rest.foldr Directive.wrap (.ofEvents (ps.map (·.event))) else .empty) := by
    cases kept with
    | true => exact inert
    | false => exact fun _ => rfl
  rw [← context] at streamless ⊢
  cases loop : Directive.loop? ds with
  | none => exact Follows.after (.silent (carry_skip (evaluated_skip rfl))) (follows_element (delivers q) gives streamless)
  | some pair =>
    refine Follows.after ?_ (follows_loop p pair.1 pair.2 inert' delivers gives streamless)
    exact (carry_run (.silent rfl)).trans (carry_run (.silent rfl))

end Stream

end Stencil
