import Stencil.Proofs.Stream.Held
import Stencil.Proofs.Stream.Layers

/-!
# Steps keep the frames of an expansion

One lemma for each way in which a stream gets on, and from them the step lemma `Stream.step_within`: if
the state before a step is scoped, so is the state after it, whatever the step comes to.
-/

namespace Stencil

variable {c : Context} {top : Nat} {hs : List Hold} {fuel : Nat} {u : Stream} {s : Store}

namespace Advance

theorem Within.map {r : Advance} (h : r.Within c top hs) (wrap : Stream → Stream) (same : ∀ v, (wrap v).holds = v.holds) :
    (r.map wrap).Within c top hs := by
  cases r <;> simpa only [Advance.map, Within, same] using h

end Advance

open Advance

/-! ## Filters -/

theorem Stream.holds_filtered (fs : List Filter) (u : Stream) : (u.filtered fs).holds = u.holds := by
  induction fs generalizing u with
  | nil => rfl
  | cons f fs ih =>
    change (Stream.filtered fs (f.apply u)).holds = u.holds
    rw [ih]
    cases f <;> rfl

theorem Template.holds_expansion (t : Template) : t.expansion.holds = [] := by
  rw [Template.expansion, Stream.holds_filtered]
  exact Stream.holds_filtered _ _

/-! ## Loading -/

namespace Store

/-- Context and streams are what they were. -/
def Beside (s s' : Store) : Prop := s'.context = s.context ∧ s'.replays = s.replays

theorem compileFile_beside (s : Store) (path : Text) : s.Beside (s.compileFile path).2 := by
  unfold compileFile
  split
  · exact ⟨rfl, rfl⟩
  · simp only
    split <;> exact ⟨rfl, rfl⟩

theorem compileAndKeep_beside (s : Store) (l : Library) (path : Text) (modified : Timestamp) :
    s.Beside (s.compileAndKeep l path modified).2 := by
  have compiled := s.compileFile_beside path
  unfold compileAndKeep
  split
  · rename_i t s' r
    rw [r] at compiled
    exact compiled
  · exact compiled

theorem load_beside (s : Store) (l : Library) (name relativeTo : Text) : s.Beside (s.load l name relativeTo).2 := by
  unfold load
  split
  · rename_i path modified _
    unfold loadFile
    split
    · split
      · exact ⟨rfl, rfl⟩
      · exact compileAndKeep_beside (s.report ..) l path modified
    · exact compileAndKeep_beside (s.report ..) l path modified
  · exact ⟨rfl, rfl⟩

end Store

theorem Scoped.beside {s' : Store} (h : Scoped c top hs s) (b : s.Beside s') : Scoped c top hs s' :=
  h.congr b.1 fun id d => by simp only [Store.Runs, Store.replay, b.2]

namespace Stream

/-! ## Replays -/

theorem stepReplay_within {r : Replay} (h : Scoped c top (r.holds ++ hs) s) : (stepReplay r .replay s).Within c top hs := by
  unfold stepReplay
  cases r with
  | plain es => cases es <;> exact h
  | waiting f es =>
    cases es with
    | nil =>
      simp only [Replay.next, Context.releaseFrom_push]
      exact h
    | cons e es => exact h.push f
  | running d es =>
    cases es with
    | nil => exact h.release
    | cons e es => exact h
  | finished => exact h

theorem stepShared_within {id : Nat} (h : Scoped c top (.value id :: hs) s) : (stepShared id s).Within c top hs := by
  have idle : (∀ d es, s.replay id ≠ .running d es) → ∀ r, (∀ d es, r ≠ Replay.running d es) →
      Scoped c top (.value id :: hs) (s.setReplay id r) := fun was is r => by
    refine h.setReplay fun d => ⟨?_, ?_⟩
    · rintro ⟨es, running⟩
      exact absurd running (r d es)
    · rintro ⟨es, running⟩
      exact absurd running (was d es)
  unfold stepShared
  cases r : s.replay id with
  | plain es => cases es <;> exact idle (by simp [r]) _ (by simp)
  | waiting f es =>
    cases es with
    | nil =>
      simp only [Replay.next, Context.releaseFrom_push]
      exact idle (by simp [r]) _ (by simp)
    | cons e es => exact h.enterValue List.mem_cons_self r
  | running d es =>
    cases es with
    | nil => exact (h.finishValue r).addValue id
    | cons e es => exact h.setReplay fun d' => by simp [Store.Runs, r]
  | finished => exact idle (by simp [r]) _ (by simp)

/-! ## Directives -/

theorem closeBare (bare : u.Bare) (h : Scoped c top (u.holds ++ hs) s) : Scoped c top hs (u.close s) :=
  h.closeEnded (by simp [reads_of_bare bare])

theorem drop_within (rest : List Directive) (bare : u.Bare) (h : Scoped c top (u.holds ++ hs) s) :
    (drop rest u s).Within c top hs := closeBare bare h

theorem refuse_within (why : Stop) (bare : u.Bare) (h : Scoped c top (u.holds ++ hs) s) :
    (refuse why u s).Within c top hs := closeBare bare h

theorem test_within (wanted : Bool) (e : Expression) (rest : List Directive) (bare : u.Bare) (h : Scoped c top (u.holds ++ hs) s) :
    (test fuel wanted e rest u s).Within c top hs := by
  unfold test
  split
  · rename_i v s' r
    have h := h.made (Expression.eval_made r)
    split
    · exact h
    · exact drop_within rest bare h
  · exact refuse_within _ bare h

theorem capture_beside (s : Store) (body : BodyId) (events : List Event) : s.Beside (s.capture body events) := by
  unfold Store.capture
  split <;> exact ⟨rfl, rfl⟩

theorem complete_within (d : Directive) (rest : List Directive) (events : List Event) (bare : u.Bare)
    (h : Scoped c top (u.holds ++ hs) s) : (complete d rest events u s).Within c top hs := by
  unfold complete
  split
  · exact drop_within rest bare ((h.beside (capture_beside s _ events)).define _ _)
  · exact drop_within rest bare (h.beside (capture_beside s _ events))
  · exact closeBare bare h

theorem applyDirective_within (d : Directive) (rest : List Directive) (bare : u.Bare) (h : Scoped c top (u.holds ++ hs) s) :
    (applyDirective fuel d rest u s).Within c top hs := by
  unfold applyDirective
  split
  case h_2 | h_7 => exact test_within _ _ rest bare h
  case h_9 body matched => exact (closeBare bare h).made ⟨rfl, [], by simp, by simp⟩
  case h_10 => exact complete_within _ rest [] bare h
  all_goals exact h

/-! ## Loops -/

theorem startLoop_within (targets : List Text) (items : Expression) (h : Scoped c top (u.holds ++ hs) s) :
    (startLoop fuel targets items u s).Within c top hs := by
  unfold startLoop
  split
  · exact h
  · rename_i v s' r
    have h := h.made (Expression.eval_made r)
    split
    · exact h
    · split <;> exact h

theorem stepLoop_within (targets : List Text) (items : List Value) (body? : Option (List Event))
    (current? : Option (Nat × List Event))
    (h : Scoped c top ((looping targets items body? current? u).holds ++ hs) s) :
    (stepLoop targets items body? current? u s).Within c top hs := by
  unfold stepLoop
  split
  · exact h
  · exact h.release
  · exact h
  · unfold startIteration
    split
    · exact h
    · split <;> exact h.push _

/-! ## Attributes and tags of an element -/

theorem mergeInto_within (e : Expression) (first : Event) (h : Scoped c top (u.holds ++ hs) s) :
    (mergeInto fuel e first u s).Within c top hs := by
  unfold mergeInto
  split
  · split
    · exact h
    · rename_i v s' r
      have h := h.made (Expression.eval_made r)
      split
      · split <;> exact h
      · exact h
  · exact h

theorem stepContent_within (e : Expression) (phase : ContentPhase) {r : Advance} (h : r.Within c top hs) :
    (stepContent e phase r).Within c top hs := by
  unfold stepContent
  split
  · dsimp only
    split <;> exact h
  all_goals exact h

theorem testStrip_within (test : Option Expression) (h : Scoped c top (u.holds ++ hs) s) :
    (testStrip fuel test u s).Within c top hs := by
  unfold testStrip
  split
  · exact h
  · split
    · rename_i v s' r
      have h := h.made (Expression.eval_made r)
      split <;> exact h
    · exact h

theorem stepStrip_within (test : Option Expression) (phase : StripPhase) {r : Advance} (h : r.Within c top hs) :
    (stepStrip test phase r).Within c top hs := by
  unfold stepStrip
  split <;> exact h

/-! ## Filters -/

theorem evaluateEvent_within (e : Event) (h : Scoped c top (u.holds ++ hs) s) :
    (evaluateEvent fuel e u s).Within c top hs := by
  unfold evaluateEvent
  split
  · split
    · rename_i as s' r
      exact h.made (Attributes.eval_made r)
    · exact h
  · split
    · exact h
    · rename_i id s' r
      exact (h.made (Expression.eval_made r)).addValue id
    · rename_i v s' _ r
      have h := h.made (Expression.eval_made r)
      split <;> exact h
  · exact h

theorem stepTidied_within (text? : Option (Position × Text)) {r : Advance} (h : r.Within c top hs) :
    (stepTidied text? r).Within c top hs := by
  unfold stepTidied
  split
  case h_2 | h_4 => split <;> exact h
  all_goals exact h

theorem stepSubstituted_within (path : Path) (body : BodyId) (openElements : List Event) {r : Advance}
    (h : r.Within c top hs) : (stepSubstituted path body openElements r).Within c top hs := by
  unfold stepSubstituted
  split
  · split
    · split <;> exact h
    · split <;> exact h
  · exact h.map (.substituted path body openElements) fun _ => rfl

theorem stepMatching_within (path : Path) (body : BodyId) (openElements : List Event) (p : Position) (depth : Nat)
    (matched : List Event) {r : Advance} (h : r.Within c top hs) :
    (stepMatching path body openElements p depth matched r).Within c top hs := by
  unfold stepMatching
  split
  · dsimp only
    repeat' split
    all_goals exact h
  all_goals exact h

/-! ## Includes -/

theorem insert_within (filename : Text) (prefixes : List Text) (i : Inclusion) (h : Scoped c top (u.holds ++ hs) s) :
    (insert filename prefixes i u s).Within c top hs := by
  unfold insert
  dsimp only
  split
  · split
    · exact h
    · rename_i library _
      have loaded := s.load_beside library (i.attributes.textOf "href") filename
      split
      · rename_i t s' r
        rw [r] at loaded
        change Scoped c top ((t.expansion.holds ++ (u.filtered t.filters).holds) ++ hs) s'
        rw [t.holds_expansion, holds_filtered]
        exact h.beside loaded
      · rename_i f s' r
        rw [r] at loaded
        have h := h.beside loaded
        unfold fallBack
        split
        · exact h.beside ⟨rfl, rfl⟩
        · exact h
  · exact h

theorem stepIncluded_within (filename : Text) (prefixes : List Text) {r : Advance} (h : r.Within c top hs) :
    (stepIncluded filename prefixes r).Within c top hs := by
  unfold stepIncluded
  split
  case h_4 => exact h.map (.included filename prefixes) fun _ => rfl
  all_goals split <;> exact h

theorem stepIncluding_within (filename : Text) (prefixes : List Text) (i : Inclusion) {r : Advance}
    (h : r.Within c top hs) : (stepIncluding filename prefixes i r).Within c top hs := by
  unfold stepIncluding
  split
  · dsimp only
    split
    · exact insert_within filename prefixes _ h
    · exact h
  · exact h
  · exact insert_within filename prefixes _ h
  · exact h

theorem stepInserting_within (filename : Text) (prefixes : List Text) (indentation : Nat) {r : Advance} (rests : r.Rests)
    (h : r.Within c top (u.holds ++ hs)) : (stepInserting filename prefixes indentation u r).Within c top hs := by
  unfold stepInserting
  split
  · simpa only [Within, holds, List.append_assoc] using h
  · exact Scoped.closeEnded h rests
  · cases r <;> simpa only [Advance.map, Within, holds, List.append_assoc] using h

/-! ## Templates -/

theorem stepExpanded_within (t : Template) (last : Position) {r : Advance} (rests : r.Rests) (h : r.Within c top hs) :
    (stepExpanded t last r).Within c top hs := by
  unfold stepExpanded
  split
  · rename_i p directives events v s'
    change Scoped c top (((directed directives.reverse [] (.ofEvents events)).filtered t.expansionFilters).holds
      ++ v.holds ++ hs) s'
    rw [holds_filtered]
    exact h
  · exact h
  · exact h
  · exact Scoped.closeEnded h rests
  · exact h

/-! ## All streams -/

/-- **A step keeps the frames of an expansion**: if the state before it is scoped, so is the state after. -/
theorem step_within (fuel : Nat) (u : Stream) {hs : List Hold} {s : Store} (layered : u.Layered)
    (h : Scoped c top (u.holds ++ hs) s) : (step fuel u s).Within c top hs := by
  induction u generalizing hs s with
  | replay r => exact stepReplay_within h
  | shared id => exact stepShared_within h
  | append first rest ih =>
    simp only [holds, List.append_assoc] at h
    have rests := rests_step (k := fuel) (s := s) layered.1
    have first := ih layered.1 h
    simp only [step]
    split
    · rename_i v s' r
      rw [r] at first rests
      exact Scoped.closeEnded first rests
    · generalize step fuel _ s = r at first
      cases r <;> simpa only [Advance.map, Within, holds, List.append_assoc] using first
  | ended u => exact h
  | loop targets items u => exact startLoop_within targets items h
  | gathering targets items body u ih =>
    have inner := ih (layered_of_bare layered) h
    simp only [step]
    split <;> rename_i r <;> rw [r] at inner <;> exact inner
  | looping targets items body? current? u => exact stepLoop_within targets items body? current? h
  | attributes e u ih =>
    have inner := ih (layered_of_bare layered) h
    simp only [step]
    split
    · rename_i r
      rw [r] at inner
      exact mergeInto_within e _ inner
    · rename_i r
      rw [r] at inner
      exact inner
    · exact inner
  | content e phase u ih =>
    cases phase with
    | expression p => exact h
    | _ => exact stepContent_within e _ (ih (layered_of_bare layered) h)
  | replaced e u ih =>
    have inner := ih (layered_of_bare layered) h
    simp only [step]
    split
    · rename_i r
      rw [r] at inner
      exact inner
    · rename_i r
      rw [r] at inner
      exact inner
    · exact inner.map .ended fun _ => rfl
  | strip test phase u ih =>
    cases phase with
    | untested => exact testStrip_within test h
    | _ => exact stepStrip_within test _ (ih (layered_of_bare layered) h)
  | directed directives read u ih =>
    cases directives with
    | nil => exact h
    | cons d rest =>
      have bare : u.Bare := layered
      have stays := bare_step (k := fuel) (s := s) bare
      have inner := ih (layered_of_elemental (elemental_of_bare bare)) h
      simp only [step]
      split
      · split <;> rename_i r <;> rw [r] at inner stays
        · exact inner
        · exact inner
        · exact complete_within d rest _ stays inner
        · exact refuse_within _ stays inner
      · exact applyDirective_within d rest bare h
  | evaluated u ih =>
    have rests := rests_step (k := fuel) (s := s) (u := u) layered
    have inner := ih layered h
    simp only [step]
    split
    · rename_i r
      rw [r] at inner
      exact evaluateEvent_within _ inner
    · rename_i r
      rw [r] at inner rests
      exact Scoped.closeEnded inner rests
    · exact inner.map .evaluated fun _ => rfl
  | tidied pending? text? u ih =>
    cases pending? with
    | some e => exact h
    | none => exact stepTidied_within text? (ih layered h)
  | substituted path body openElements u ih => exact stepSubstituted_within path body openElements (ih layered h)
  | matching path body openElements p depth matched u ih =>
    exact stepMatching_within path body openElements p depth matched (ih layered h)
  | included filename prefixes u ih => exact stepIncluded_within filename prefixes (ih layered h)
  | including filename prefixes i u ih => exact stepIncluding_within filename prefixes i (ih layered h)
  | inserting filename prefixes indentation inserted u ih =>
    simp only [holds, List.append_assoc] at h
    exact stepInserting_within filename prefixes indentation (rests_step layered.1) (ih layered.1 h)
  | expanded t last u ih => exact stepExpanded_within t last (rests_step (u := u) layered) (ih layered h)

/-! ## Runs -/

/-- The states that steps lead to, each of them with any fuel for its expressions. Steps may go on after
a failure. -/
inductive Reaches (u : Stream) (s : Store) : Stream → Store → Prop
  | start : Reaches u s u s
  | step {v : Stream} {t : Store} (before : Reaches u s v t) (fuel : Nat) :
      Reaches u s (step fuel v t).stream (step fuel v t).store

theorem Reaches.layered {v : Stream} {t : Store} (h : u.Layered) (r : Reaches u s v t) : v.Layered := by
  induction r with
  | start => exact h
  | step _ _ ih => exact layered_step ih

theorem Reaches.scoped {v : Stream} {t : Store} (layered : u.Layered) (h : Scoped c top u.holds s) (r : Reaches u s v t) :
    Scoped c top v.holds t := by
  induction r with
  | start => exact h
  | @step v t before fuel ih =>
    have after : (Stream.step fuel v t).Within c top [] := step_within fuel v (before.layered layered) (by simpa using ih)
    generalize Stream.step fuel v t = r at after
    cases r <;> simpa [Advance.Within, Advance.stream, Advance.store] using after

/-- Pulling up to the next event goes on by steps. -/
theorem Reaches.pull {v : Stream} {t : Store} (before : Reaches u s v t) (fuel : Nat) :
    match pull fuel v t with
    | .event _ w r | .ended w r | .stopped _ w r => Reaches u s w r := by
  induction fuel generalizing v t with
  | zero => exact before
  | succ fuel ih =>
    have next := before.step fuel
    simp only [Stream.pull]
    cases r : Stream.step fuel v t with
    | skip w t' => rw [r] at next; exact ih next
    | _ => rw [r] at next; exact next

/-- The limit lets one event more be pulled. -/
theorem collectFrom_more (acc : List Event) (fuel : Nat) {limit? : Option Nat} (more : limit? ≠ some 0) (u : Stream)
    (s : Store) :
    collectFrom acc (fuel + 1) limit? u s = match pull fuel u s with
      | .event e u s => collectFrom (e :: acc) fuel (limit?.map (· - 1)) u s
      | .ended u s => ⟨acc.reverse, none, u, s⟩
      | .stopped why u s => ⟨acc.reverse, some why, u, s⟩ := by
  rcases limit? with _ | _ | n
  · rfl
  · contradiction
  · rfl

/-- Pulling events goes on by steps. -/
theorem Reaches.collectFrom {v : Stream} {t : Store} (before : Reaches u s v t) (acc : List Event) (fuel : Nat)
    (limit? : Option Nat) :
    Reaches u s (collectFrom acc fuel limit? v t).stream (collectFrom acc fuel limit? v t).store := by
  induction fuel generalizing acc limit? v t with
  | zero =>
    unfold Stream.collectFrom
    split
    · exact before
    · exact before
    · contradiction
  | succ fuel ih =>
    by_cases more : limit? = some 0
    · subst more
      exact before
    · have next := before.pull fuel
      rw [collectFrom_more acc fuel more]
      split <;> rename_i r <;> rw [r] at next
      · exact ih next _ _
      · exact next
      · exact next

end Stream

namespace Template

/-- **Expansions restore the context.** Let `c` be a context, or the lower frames of one, in which no stream
that is being read has a frame. However many events of an expansion are pulled, also if it fails or lacks
fuel: at no step on the way one of these frames is missing, and only the top one changes, by functions that
`def` directives bind. When the expansion is given up, no more frames are left than there were, unless the
first of the new ones is that of a stream that a variable holds. -/
theorem expansion_restores_context (t : Template) {c : Context} {s : Store} (below : ∃ pushed, c.Above pushed s.context)
    (idle : ∀ id d, s.Runs id d → c.depth < d) (fuel : Nat) (limit? : Option Nat) :
    let pulled := t.expansion.collect fuel limit? s
    let after := pulled.stream.giveUp pulled.store
    (∀ u s', t.expansion.Reaches s u s' → ∃ pushed, c.Above pushed s'.context) ∧
      t.expansion.Reaches s pulled.stream pulled.store ∧
      (∃ pushed, c.Above pushed after.context) ∧ (∀ id d, after.Runs id d → c.depth < d) ∧
      ((∃ id, after.Holds id ∧ after.Runs id (s.context.depth + 1)) ∨
        after.context.depth ≤ s.context.depth ∧ (c.depth = s.context.depth → c.Above [] after.context)) := by
  intro pulled after
  have initial : Scoped c s.context.depth t.expansion.holds s := by
    rw [t.holds_expansion]
    exact .refl below idle
  have reached : t.expansion.Reaches s pulled.stream pulled.store := Stream.Reaches.start.collectFrom [] fuel limit?
  obtain ⟨left, rest, held⟩ := (reached.scoped t.layered_expansion initial).giveUp
  refine ⟨fun u s' r => (r.scoped t.layered_expansion initial).above, reached, rest.above, rest.values, ?_⟩
  by_cases more : s.context.depth < after.context.depth
  · obtain ⟨x, hx, inForce⟩ := rest.first more
    obtain ⟨id, member, rfl⟩ := List.mem_map.1 hx
    exact .inl ⟨id, Store.holds_of_mem_held (held id member).2, inForce⟩
  · refine .inr ⟨Nat.le_of_not_lt more, fun whole => ?_⟩
    obtain ⟨pushed, above⟩ := rest.above
    have length : after.context.depth = pushed.length + c.depth := above.depth
    obtain rfl : pushed = [] := List.eq_nil_of_length_eq_zero (by omega)
    exact above

/-- A template with a function that is called in a loop. -/
def callingLoop : Template where
  id := 0
  filename := "t.xml"
  events := [.sub ⟨1, 0⟩ [.define ⟨"f", [⟨"x", none⟩]⟩ ⟨0, 0⟩] [.expression ⟨1, 4⟩ ⟨"x"⟩],
    .sub ⟨2, 0⟩ [.loop ["x"] ⟨"xs"⟩] [.expression ⟨2, 4⟩ ⟨"f(x)"⟩]]
  preFilters := [.evaluate]
  filters := []
  postFilters := []

/-- The loop is given up inside of its first call. -/
theorem expansion_restores_context_in_call :
    let s : Store := .ofContext (.ofBase [("xs", .list [.int 1, .int 2])]) (.empty [])
    let pulled := callingLoop.expansion.collect 50 (some 1) s
    let after := pulled.stream.giveUp pulled.store
    (∀ id d, s.Runs id d → s.context.depth < d) ∧ pulled.store.context.depth = 3 ∧ after.context.depth = 1 ∧
      ∃ pushed, s.context.Above pushed after.context := by
  intro s pulled after
  have idle : ∀ id d, s.Runs id d → s.context.depth < d := by
    rintro id d ⟨es, running⟩
    cases running
  exact ⟨idle, by decide +kernel, by decide +kernel,
    (callingLoop.expansion_restores_context ⟨[], .refl _⟩ idle 50 (some 1)).2.2.1⟩

/-- A template that reads a variable inside of an element. -/
def readingElement : Template where
  id := 0
  filename := "t.xml"
  events := [.startTag ⟨1, 0⟩ (.plain "e") [], .expression ⟨1, 3⟩ ⟨"s"⟩, .endTag ⟨1, 7⟩ (.plain "e")]
  preFilters := [.evaluate]
  filters := []
  postFilters := []

/-- **A frame may stay, and a frame may go.** The frame of a call's stream that a variable holds stays when the
expansion that has begun to read the stream is given up. If another expansion reads the rest of the stream, it
loses that frame, although it was there before. -/
theorem expansion_exchanges_frames :
    let call : List Event := [.text ⟨1, 0⟩ "A"]
    let s : Store :=
      { Store.ofContext (.ofBase [("s", .stream 0)]) (.empty []) with replays := #[.waiting [("x", .int 1)] call] }
    let pulled := readingElement.expansion.collect 50 (some 2) s
    let after := pulled.stream.giveUp pulled.store
    s.context.depth = 1 ∧ after.context.depth = 2 ∧
      ∃ u r, readingElement.expansion.Reaches after u r ∧ ¬ ∃ pushed, after.context.Above pushed r.context := by
  intro call s pulled after
  have depth : after.context.depth = 2 := by decide +kernel
  refine ⟨rfl, depth, (readingElement.expansion.collect 50 none after).stream,
    (readingElement.expansion.collect 50 none after).store, Stream.Reaches.start.collectFrom [] 50 none, ?_⟩
  rintro ⟨pushed, above⟩
  have less : (readingElement.expansion.collect 50 none after).store.context.depth = 1 := by decide +kernel
  have more := above.depth
  rw [less, depth] at more
  omega

end Template

end Stencil
