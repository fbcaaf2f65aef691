import Stencil.Proofs.Stream.Run

/-!
# Streams that differ in one place

Two streams have the same filters around two streams that differ (`Stream.Around`). What a step does with them depends on
what it does with the two, and on nothing else (`Stream.Around.step`): they come to the same as long as these do.
-/

namespace Stencil

namespace Stream

/-- The same filters are around two streams that are related. The templates that are expanded may have different events. -/
inductive Around (R : Stream → Stream → Prop) : Stream → Stream → Prop
  | same (u : Stream) : Around R u u
  | here {u v : Stream} (related : R u v) : Around R u v
  | append {u v : Stream} (first : Stream) (rest : Around R u v) : Around R (append first u) (append first v)
  | evaluated {u v : Stream} (source : Around R u v) : Around R (evaluated u) (evaluated v)
  | tidied {u v : Stream} (pending? : Option Event) (text? : Option (Position × Text)) (source : Around R u v) :
      Around R (tidied pending? text? u) (tidied pending? text? v)
  | substituted {u v : Stream} (path : Path) (body : BodyId) (openElements : List Event) (source : Around R u v) :
      Around R (substituted path body openElements u) (substituted path body openElements v)
  | matching {u v : Stream} (path : Path) (body : BodyId) (openElements : List Event) (p : Position) (depth : Nat)
      (matched : List Event) (source : Around R u v) :
      Around R (matching path body openElements p depth matched u) (matching path body openElements p depth matched v)
  | included {u v : Stream} (filename : Text) (prefixes : List Text) (source : Around R u v) :
      Around R (included filename prefixes u) (included filename prefixes v)
  | including {u v : Stream} (filename : Text) (prefixes : List Text) (i : Inclusion) (source : Around R u v) :
      Around R (including filename prefixes i u) (including filename prefixes i v)
  | inserting {u v : Stream} (filename : Text) (prefixes : List Text) (indentation : Nat) (inserted : Stream)
      (source : Around R u v) :
      Around R (inserting filename prefixes indentation inserted u) (inserting filename prefixes indentation inserted v)
  | expanded {t t' : Template} {u v : Stream} (filename : t.filename = t'.filename)
      (filters : t.expansionFilters = t'.expansionFilters) (last : Position) (source : Around R u v) :
      Around R (expanded t last u) (expanded t' last v)

/-- The next step of two streams is one of two that are related, inside of the same filters. -/
inductive Facing (G : Stream → Stream → Prop) : Stream → Stream → Prop
  | here {u v : Stream} (related : G u v) : Facing G u v
  | evaluated {u v : Stream} (source : Facing G u v) : Facing G (evaluated u) (evaluated v)
  | tidied {u v : Stream} (text? : Option (Position × Text)) (source : Facing G u v) :
      Facing G (tidied none text? u) (tidied none text? v)
  | substituted {u v : Stream} (path : Path) (body : BodyId) (openElements : List Event) (source : Facing G u v) :
      Facing G (substituted path body openElements u) (substituted path body openElements v)
  | matching {u v : Stream} (path : Path) (body : BodyId) (openElements : List Event) (p : Position) (depth : Nat)
      (matched : List Event) (source : Facing G u v) :
      Facing G (matching path body openElements p depth matched u) (matching path body openElements p depth matched v)
  | included {u v : Stream} (filename : Text) (prefixes : List Text) (source : Facing G u v) :
      Facing G (included filename prefixes u) (included filename prefixes v)
  | including {u v : Stream} (filename : Text) (prefixes : List Text) (i : Inclusion) (source : Facing G u v) :
      Facing G (including filename prefixes i u) (including filename prefixes i v)
  | expanded {t t' : Template} {u v : Stream} (filename : t.filename = t'.filename)
      (filters : t.expansionFilters = t'.expansionFilters) (last : Position) (source : Facing G u v) :
      Facing G (expanded t last u) (expanded t' last v)

end Stream

/-- Two steps come to the same, and to streams that have the same filters around related ones. -/
inductive Advance.Around (R : Stream → Stream → Prop) : Advance → Advance → Prop
  | yield {u v : Stream} (e : Event) (s : Store) (streams : u.Around R v) : Around R (yield e u s) (yield e v s)
  | skip {u v : Stream} (s : Store) (streams : u.Around R v) : Around R (skip u s) (skip v s)
  | done {u v : Stream} (s : Store) (streams : u.Around R v) : Around R (done u s) (done v s)
  | fail {u v : Stream} (why : Stop) (s : Store) (streams : u.Around R v) : Around R (fail why u s) (fail why v s)

variable {R G : Stream → Stream → Prop} {k : Nat} {u v : Stream} {s : Store} {a b : Advance}

namespace Advance

theorem Around.refl (a : Advance) : a.Around R a := by
  cases a with
  | yield e u s => exact .yield e s (.same u)
  | skip u s => exact .skip s (.same u)
  | done u s => exact .done s (.same u)
  | fail why u s => exact .fail why s (.same u)

theorem Around.shows (h : a.Around R b) (shows : ∀ v r, a ≠ .skip v r) (v : Stream) (r : Store) : b ≠ .skip v r := by
  cases h with
  | skip => exact absurd rfl (shows _ _)
  | _ => simp

/-- Two steps come to the same, and to related streams and a store. -/
inductive Pairs (L : Stream → Stream → Store → Prop) : Advance → Advance → Prop
  | yield {u v : Stream} {s : Store} (e : Event) (next : L u v s) : Pairs L (yield e u s) (yield e v s)
  | done (u v : Stream) (s : Store) : Pairs L (done u s) (done v s)
  | fail (why : Stop) (u v : Stream) (s : Store) : Pairs L (fail why u s) (fail why v s)

theorem Around.pairs {L : Stream → Stream → Store → Prop} (h : a.Around R b) (shows : ∀ v r, a ≠ .skip v r)
    (next : ∀ e u v s, a = .yield e u s → b = .yield e v s → u.Around R v → L u v s) : a.Pairs L b := by
  cases h with
  | yield e s streams => exact .yield e (next _ _ _ _ rfl rfl streams)
  | skip => exact absurd rfl (shows _ _)
  | done => exact .done ..
  | fail => exact .fail ..

end Advance

namespace Stream

theorem Around.symm {R' : Stream → Stream → Prop} (turns : ∀ u v, R u v → R' v u) (h : Around R u v) : Around R' v u := by
  induction h with
  | same u => exact .same u
  | here related => exact .here (turns _ _ related)
  | append first _ ih => exact .append first ih
  | evaluated _ ih => exact .evaluated ih
  | tidied pending? text? _ ih => exact .tidied pending? text? ih
  | substituted path body openElements _ ih => exact .substituted path body openElements ih
  | matching path body openElements p depth matched _ ih => exact .matching path body openElements p depth matched ih
  | included filename prefixes _ ih => exact .included filename prefixes ih
  | including filename prefixes i _ ih => exact .including filename prefixes i ih
  | inserting filename prefixes indentation inserted _ ih => exact .inserting filename prefixes indentation inserted ih
  | expanded filename filters last _ ih => exact .expanded filename.symm filters.symm last ih

theorem Facing.symm {G' : Stream → Stream → Prop} (turns : ∀ u v, G u v → G' v u) (h : Facing G u v) : Facing G' v u := by
  induction h with
  | here related => exact .here (turns _ _ related)
  | evaluated _ ih => exact .evaluated ih
  | tidied text? _ ih => exact .tidied text? ih
  | substituted path body openElements _ ih => exact .substituted path body openElements ih
  | matching path body openElements p depth matched _ ih => exact .matching path body openElements p depth matched ih
  | included filename prefixes _ ih => exact .included filename prefixes ih
  | including filename prefixes i _ ih => exact .including filename prefixes i ih
  | expanded filename filters last _ ih => exact .expanded filename.symm filters.symm last ih

theorem Around.filtered (fs : List Filter) (h : Around R u v) : Around R (u.filtered fs) (v.filtered fs) := by
  induction fs generalizing u v with
  | nil => exact h
  | cons f fs ih =>
    refine ih ?_
    cases f with
    | evaluate => exact .evaluated h
    | tidy => exact .tidied none none h
    | substitute path body => exact .substituted path body [] h
    | inclusion filename => exact .included filename [] h

/-- Giving the streams up does the same. -/
theorem Around.close (closes : ∀ u v, R u v → ∀ s, u.close s = v.close s) (h : Around R u v) (s : Store) :
    u.close s = v.close s := by
  induction h generalizing s with
  | same => rfl
  | here related => exact closes _ _ related s
  | append first _ ih => exact ih _
  | inserting _ _ _ inserted _ ih => exact ih _
  | evaluated _ ih => exact ih s
  | tidied _ _ _ ih | included _ _ _ ih => exact ih s
  | substituted _ _ _ _ ih | including _ _ _ _ ih => exact ih s
  | matching _ _ _ _ _ _ _ ih => exact ih s
  | expanded _ _ _ _ ih => exact ih s

/-! ## Steps of the filters -/

theorem Around.evaluateEvent (e : Event) (s : Store) (h : Around R u v) :
    (evaluateEvent k e u s).Around R (evaluateEvent k e v s) := by
  cases e with
  | startTag p name as =>
    simp only [Stream.evaluateEvent]
    split
    · exact .yield _ _ (.evaluated h)
    · exact .fail _ _ (.evaluated h)
  | expression p x =>
    simp only [Stream.evaluateEvent]
    split
    · exact .fail _ _ (.evaluated h)
    · exact .skip _ (.evaluated (.append _ h))
    · split
      · exact .skip _ (.evaluated h)
      · exact .yield _ _ (.evaluated h)
  | _ => exact .yield _ _ (.evaluated h)

theorem Around.stepTidied (text? : Option (Position × Text)) (h : a.Around R b) :
    (stepTidied text? a).Around R (stepTidied text? b) := by
  cases h with
  | yield e s streams =>
    cases e with
    | text p t => exact .skip _ (.tidied _ _ streams)
    | _ => cases text? <;> exact .yield _ _ (.tidied _ _ streams)
  | skip s streams => exact .skip _ (.tidied _ _ streams)
  | done s streams =>
    cases text? with
    | none => exact .done _ (.tidied _ _ streams)
    | some => exact .yield _ _ (.tidied _ _ streams)
  | fail why s streams => exact .fail _ _ (.tidied _ _ streams)

theorem Around.stepSubstituted (path : Path) (body : BodyId) (openElements : List Event) (h : a.Around R b) :
    (stepSubstituted path body openElements a).Around R (stepSubstituted path body openElements b) := by
  cases h with
  | yield e s streams =>
    simp only [Stream.stepSubstituted]
    split
    · split
      · exact .skip _ (.matching _ _ _ _ _ _ streams)
      · exact .yield _ _ (.substituted _ _ _ streams)
    · split <;> exact .yield _ _ (.substituted _ _ _ streams)
  | skip s streams => exact .skip _ (.substituted _ _ _ streams)
  | done s streams => exact .done _ (.substituted _ _ _ streams)
  | fail why s streams => exact .fail _ _ (.substituted _ _ _ streams)

theorem Around.stepMatching (path : Path) (body : BodyId) (openElements : List Event) (p : Position) (depth : Nat)
    (matched : List Event) (h : a.Around R b) :
    (stepMatching path body openElements p depth matched a).Around R
      (stepMatching path body openElements p depth matched b) := by
  cases h with
  | yield e s streams =>
    simp only [Stream.stepMatching]
    generalize (if e.isStart then depth + 1 else if e.isEnd then depth - 1 else depth) = d
    split
    · exact .yield _ _ (.substituted _ _ _ streams)
    · exact .skip _ (.matching _ _ _ _ _ _ streams)
  | skip s streams => exact .skip _ (.matching _ _ _ _ _ _ streams)
  | done s streams => exact .yield _ _ (.substituted _ _ _ streams)
  | fail why s streams => exact .fail _ _ (.substituted _ _ _ streams)

theorem Around.stepIncluded (filename : Text) (prefixes : List Text) (h : a.Around R b) :
    (stepIncluded filename prefixes a).Around R (stepIncluded filename prefixes b) := by
  cases h with
  | yield e s streams =>
    cases e with
    | startNamespace p pre uri =>
      simp only [Stream.stepIncluded]
      split
      · exact .skip _ (.included _ _ streams)
      · exact .yield _ _ (.included _ _ streams)
    | endNamespace p pre =>
      simp only [Stream.stepIncluded]
      split
      · exact .skip _ (.included _ _ streams)
      · exact .yield _ _ (.included _ _ streams)
    | startTag p name as =>
      simp only [Stream.stepIncluded]
      split
      · exact .skip _ (.including _ _ _ streams)
      · exact .yield _ _ (.included _ _ streams)
    | _ => exact .yield _ _ (.included _ _ streams)
  | skip s streams => exact .skip _ (.included _ _ streams)
  | done s streams => exact .done _ (.included _ _ streams)
  | fail why s streams => exact .fail _ _ (.included _ _ streams)

theorem Around.insert (filename : Text) (prefixes : List Text) (i : Inclusion) (s : Store) (h : Around R u v) :
    (insert filename prefixes i u s).Around R (insert filename prefixes i v s) := by
  unfold Stream.insert
  dsimp only
  split
  · split
    · exact .fail _ _ (.included _ _ h)
    · split
      · exact .skip _ (.inserting _ _ _ _ (h.filtered _))
      · unfold fallBack
        split
        · exact .skip _ (.inserting _ _ _ _ h)
        · exact .fail _ _ (.included _ _ h)
  · exact .fail _ _ (.included _ _ h)

theorem Around.stepIncluding (filename : Text) (prefixes : List Text) (i : Inclusion) (h : a.Around R b) :
    (stepIncluding filename prefixes i a).Around R (stepIncluding filename prefixes i b) := by
  cases h with
  | yield e s streams =>
    simp only [Stream.stepIncluding]
    split
    · exact streams.insert _ _ _ _
    · exact .skip _ (.including _ _ _ streams)
  | skip s streams => exact .skip _ (.including _ _ _ streams)
  | done s streams => exact streams.insert _ _ _ _
  | fail why s streams => exact .fail _ _ (.included _ _ streams)

theorem Around.stepInserting (filename : Text) (prefixes : List Text) (indentation : Nat) (a : Advance) (h : Around R u v) :
    (stepInserting filename prefixes indentation u a).Around R (stepInserting filename prefixes indentation v a) := by
  cases a with
  | yield e x s => cases e <;> exact .yield _ _ (.inserting _ _ _ _ h)
  | skip x s => exact .skip _ (.inserting _ _ _ _ h)
  | done x s => exact .skip _ (.included _ _ h)
  | fail why x s => exact .fail _ _ (.inserting _ _ _ _ h)

theorem Around.stepExpanded {t t' : Template} (filename : t.filename = t'.filename)
    (filters : t.expansionFilters = t'.expansionFilters) (last : Position)
    (closes : ∀ u v, R u v → ∀ s, u.close s = v.close s) (h : a.Around R b) :
    (stepExpanded t last a).Around R (stepExpanded t' last b) := by
  cases h with
  | yield e s streams =>
    cases e with
    | sub p ds es =>
      simp only [Stream.stepExpanded, filters]
      exact .skip _ (.expanded filename filters _ (.append _ streams))
    | _ => exact .yield _ _ (.expanded filename filters _ streams)
  | skip s streams => exact .skip _ (.expanded filename filters _ streams)
  | done s streams =>
    simp only [Stream.stepExpanded, streams.close closes s]
    exact .done _ (.same _)
  | fail why s streams =>
    simp only [Stream.stepExpanded, filename]
    exact .fail _ _ (.expanded filename filters _ streams)

/-- **A step of streams that differ in one place** comes to the same, unless it is one of two streams that do not. -/
theorem Around.step (closes : ∀ u v, R u v → ∀ s, u.close s = v.close s)
    (steps : ∀ u v, R u v → (step k u s).Around R (step k v s) ∨ G u v) (h : Around R u v) :
    (step k u s).Around R (step k v s) ∨ Facing G u v := by
  induction h with
  | same u => exact .inl (.refl _)
  | here related => exact (steps _ _ related).imp id .here
  | @append u v first rest _ =>
    left
    simp only [Stream.step]
    split
    · exact .skip _ rest
    · rename_i running
      cases a : Stream.step k first s with
      | yield e x t => exact .yield _ _ (.append x rest)
      | skip x t => exact .skip _ (.append x rest)
      | done x t => exact absurd a (running x t)
      | fail why x t => exact .fail _ _ (.append x rest)
  | @evaluated u v source ih =>
    refine ih.imp (fun inner => ?_) .evaluated
    simp only [Stream.step]
    generalize Stream.step k u s = a, Stream.step k v s = b at inner
    cases inner with
    | yield e s streams => exact streams.evaluateEvent e s
    | skip s streams => exact .skip _ (.evaluated streams)
    | done s streams =>
      dsimp only
      rw [streams.close closes s]
      exact .refl _
    | fail why s streams => exact .fail _ _ (.evaluated streams)
  | @tidied u v pending? text? source ih =>
    cases pending? with
    | some e => exact .inl (.yield _ _ (.tidied _ _ source))
    | none => exact ih.imp (Around.stepTidied text?) (.tidied text?)
  | substituted path body openElements source ih => exact ih.imp (Around.stepSubstituted _ _ _) (.substituted _ _ _)
  | matching path body openElements p depth matched source ih =>
    exact ih.imp (Around.stepMatching _ _ _ _ _ _) (.matching _ _ _ _ _ _)
  | included filename prefixes source ih => exact ih.imp (Around.stepIncluded _ _) (.included _ _)
  | including filename prefixes i source ih => exact ih.imp (Around.stepIncluding _ _ _) (.including _ _ _)
  | inserting filename prefixes indentation inserted source ih => exact .inl (source.stepInserting _ _ _ _)
  | expanded filename filters last source ih =>
    exact ih.imp (Around.stepExpanded filename filters last closes) (.expanded filename filters last)

end Stream

end Stencil
