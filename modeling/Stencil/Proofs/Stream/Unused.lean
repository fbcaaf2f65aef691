import Stencil.Proofs.Stream.Around
import Stencil.Proofs.Stream.Changes
import Stencil.Proofs.Stream.Included
import Stencil.Proofs.Xml.Rendering

/-!
# Fallbacks that are not used

The content of a fallback is read before it is known whether it is used, and its expressions are computed. If this does
nothing to the store, and the template that the include element names can be found, two streams that differ in the content
only come to the same (`Stream.completes_unused`).
-/

open Stencil.Stream

namespace Stencil

/-! ## Events that do nothing -/

/-- Computing the expressions of an event neither fails nor changes the store, and gives no stream. -/
def Event.Inert (k : Nat) (s : Store) : Event → Prop
  | startTag _ _ as => ∃ as', as.eval k s = .ok (as', s)
  | expression _ x => ∃ v, x.eval k s = .ok (v, s) ∧ ∀ id, v ≠ .stream id
  | _ => True

/-! ## Templates that can be found -/

/-- There is a file of that name, if templates can be loaded at all. -/
def Store.finds (s : Store) (reference relativeTo : Text) : Bool :=
  match s.library? with
  | some l => ((l.candidates reference relativeTo).findSome? s.present?).isSome
  | none => true

/-- The same files are looked for in the same places. -/
def Store.SamePlaces (s t : Store) : Prop :=
  t.files = s.files ∧ t.library?.map Library.searchPath = s.library?.map Library.searchPath

namespace Store

variable {s t r : Store} {l : Library} {reference relativeTo : Text}

theorem SamePlaces.trans (first : s.SamePlaces t) (second : t.SamePlaces r) : s.SamePlaces r :=
  ⟨second.1.trans first.1, second.2.trans first.2⟩

theorem samePlaces_compileAndKeep (library : s.library? = some l) (path : Text) (time : Timestamp) :
    s.SamePlaces (s.compileAndKeep l path time).2 := by
  unfold compileAndKeep compileFile
  cases s.files.content path with
  | error => exact ⟨rfl, rfl⟩
  | ok content =>
    dsimp only
    cases (Compilation.ofDocument ⟨s.nextTemplate, path, s.registry⟩ (documentOf content)).result with
    | ok m => exact ⟨rfl, by rw [library]; rfl⟩
    | error e => exact ⟨rfl, rfl⟩

theorem samePlaces_load (library : s.library? = some l) (reference relativeTo : Text) :
    s.SamePlaces (s.load l reference relativeTo).2 := by
  unfold load
  split
  · unfold loadFile
    split
    · split
      · exact ⟨rfl, rfl⟩
      · exact samePlaces_compileAndKeep (s := s.report _ _) library _ _
    · exact samePlaces_compileAndKeep (s := s.report _ _) library _ _
  · exact ⟨rfl, rfl⟩

theorem Changes.samePlaces (h : s.Changes t) : s.SamePlaces t := by
  induction h with
  | other _ files library => exact ⟨files, by rw [library]⟩
  | made made =>
    rw [made.only]
    exact ⟨rfl, rfl⟩
  | read => exact ⟨rfl, rfl⟩
  | load library reference relativeTo => exact samePlaces_load library reference relativeTo
  | trans _ _ first second => exact first.trans second

theorem SamePlaces.finds (h : s.SamePlaces t) : t.finds reference relativeTo = s.finds reference relativeTo := by
  obtain ⟨files, searchPath⟩ := h
  unfold Store.finds
  cases there : s.library? with
  | none =>
    rw [there] at searchPath
    rw [Option.map_eq_none_iff.1 searchPath]
  | some l =>
    rw [there] at searchPath
    obtain ⟨l', library, same⟩ := Option.map_eq_some_iff.1 searchPath
    have candidates : l'.candidates reference relativeTo = l.candidates reference relativeTo := by
      simp only [Library.candidates, same]
    have present : t.present? = s.present? := by
      funext candidate
      simp only [present?, files]
    rw [library]
    dsimp only
    rw [candidates, present]

/-- A template that can be found may be refused, but is not missing. -/
theorem load_of_finds (library : s.library? = some l) (finds : s.finds reference relativeTo = true) {f : Fault} {s' : Store}
    (failed : s.load l reference relativeTo = (.error f, s')) : ∀ sought tried, f ≠ .templateNotFound sought tried := by
  have refused (s : Store) (path : Text) (time : Timestamp) (failed : s.compileAndKeep l path time = (.error f, s')) :
      ∀ sought tried, f ≠ .templateNotFound sought tried := by
    unfold compileAndKeep compileFile at failed
    cases content : s.files.content path with
    | error =>
      rw [content] at failed
      cases failed
      simp
    | ok content' =>
      rw [content] at failed
      dsimp only at failed
      cases result : (Compilation.ofDocument ⟨s.nextTemplate, path, s.registry⟩ (documentOf content')).result with
      | ok m =>
        rw [result] at failed
        cases failed
      | error e =>
        rw [result] at failed
        cases failed
        simp
  simp only [Store.finds, library] at finds
  obtain ⟨⟨path, modified⟩, found⟩ := Option.isSome_iff_exists.1 finds
  rw [load, found] at failed
  simp only [loadFile] at failed
  split at failed
  · split at failed
    · cases failed
    · exact refused _ _ _ failed
  · exact refused _ _ _ failed

end Store

/-- The include elements agree but for what has been kept of their fallbacks. -/
structure Inclusion.Agrees (i j : Inclusion) : Prop where
  position : i.position = j.position
  attributes : i.attributes = j.attributes
  depth : i.depth = j.depth
  inFallback : i.inFallback = j.inFallback

namespace Stream

variable {k d d' : Nat} {u v w x y : Stream} {s t r q : Store} {b b' es : List Event} {a : Advance} {e : Event}

/-! ## Up to the content -/

/-- Two lists of events that end differently. -/
def Before (b b' : List Event) (u v : Stream) : Prop := ∃ es, u = .ofEvents (es ++ b) ∧ v = .ofEvents (es ++ b')

/-- The lists are read up to where they differ. -/
def Parted (b b' : List Event) (u v : Stream) : Prop := u = .ofEvents b ∧ v = .ofEvents b'

theorem step_before (h : Before b b' u v) (s : Store) :
    (step k u s).Around (Before b b') (step k v s) ∨ Parted b b' u v := by
  obtain ⟨es, rfl, rfl⟩ := h
  cases es with
  | nil => exact .inr ⟨rfl, rfl⟩
  | cons e es => exact .inl (.yield e s (.here ⟨es, rfl, rfl⟩))

theorem close_before (h : Before b b' u v) (s : Store) : u.close s = v.close s := by
  obtain ⟨es, rfl, rfl⟩ := h
  rfl

theorem step_around_before (h : Around (Before b b') u v) (s : Store) :
    (step k u s).Around (Before b b') (step k v s) ∨ Facing (Parted b b') u v :=
  h.step (fun _ _ => close_before) fun _ _ related => step_before related s

/-- Where a step of the one stream is a step of the other one as long as `P` holds of the store, or they face each other, they
come to the same next, or to where they do. -/
theorem comes_around {R G : Stream → Stream → Prop} {P : Store → Prop}
    (steps : ∀ {u v s}, Around R u v → P s → (step k u s).Around R (step k v s) ∨ Facing G u v)
    (kept : ∀ {s} u, P s → P (step k u s).store) (h : Around R u v) (holds : P s) (comes : Comes k u s a) :
    (∃ c, Comes k v s c ∧ a.Around R c ∧ P a.store) ∨
      ∃ x y q, Run k u s [] x q ∧ Run k v s [] y q ∧ Facing G x y ∧ Comes k x q a := by
  obtain ⟨shows, u', s', run, last⟩ := comes
  generalize none : ([] : List Event) = es at run
  induction run generalizing v with
  | refl u s =>
    have after := kept u holds
    rcases steps h holds with next | facing
    · rw [last] at next after
      exact .inl ⟨_, ⟨next.shows shows, v, s, .refl v s, rfl⟩, next, after⟩
    · exact .inr ⟨u, v, s, .refl u s, .refl v s, facing, shows, u, s, .refl u s, last⟩
  | @skip u _ _ s _ _ _ first rest ih =>
    subst none
    have after := kept u holds
    rcases steps h holds with next | facing
    · rw [first] at next after
      generalize second : step k v s = c at next
      obtain _ | ⟨_, streams⟩ := next
      rcases ih streams after last rfl with ⟨c, comes, around⟩ | ⟨x, y, q, left, right, facing, comes⟩
      · exact .inl ⟨c, comes.after (.silent second), around⟩
      · exact .inr ⟨x, y, q, .skip first left, .skip second right, facing, comes⟩
    · exact .inr ⟨u, v, s, .refl u s, .refl v s, facing, shows, _, _, .skip first rest, last⟩
  | yield => cases none

/-- Two streams come to the same next, or to where their lists of events part. -/
theorem comes_before (h : Around (Before b b') u v) (comes : Comes k u s a) :
    (∃ c, Comes k v s c ∧ a.Around (Before b b') c) ∨
      ∃ x y q, Run k u s [] x q ∧ Run k v s [] y q ∧ Facing (Parted b b') x y ∧ Comes k x q a :=
  (comes_around (P := fun _ => True) (fun around _ => step_around_before around _) (fun _ _ => trivial) h trivial comes).imp_left
    fun same => same.imp fun _ both => ⟨both.1, both.2.1⟩

/-! ## The content -/

/-- What is left of the list of events that the next step reads from, if it does. -/
def upcoming? : Stream → Option (List Event)
  | replay (.plain es) => some es
  | evaluated u | tidied none _ u | substituted _ _ _ u | matching _ _ _ _ _ _ u | included _ _ u | including _ _ _ u
  | expanded _ _ u => u.upcoming?
  | _ => none

/-- The file with the include element that the next step reads an event of, after computing its expressions, if it does. -/
def includer? : Stream → Option (Text × Inclusion)
  | including filename _ i (evaluated (replay (.plain _))) => some (filename, i)
  | tidied none _ u | substituted _ _ _ u | matching _ _ _ _ _ _ u | expanded _ _ u => u.includer?
  | _ => none

/-- Include elements that are being read, and whose template can be found. -/
def Keeping (s : Store) (u v : Stream) : Prop :=
  ∃ filename prefixes i j x, u = .including filename prefixes i x ∧ v = .including filename prefixes j x ∧ i.Agrees j ∧
    s.finds (i.attributes.textOf "href") filename = true

theorem upcoming_of_facing (h : Facing (Parted b b') u v) : u.upcoming? = some b := by
  induction h with
  | here related =>
    obtain ⟨rfl, rfl⟩ := related
    rfl
  | evaluated _ ih | tidied _ _ ih | substituted _ _ _ _ ih | matching _ _ _ _ _ _ _ ih | included _ _ _ ih
  | including _ _ _ _ ih | expanded _ _ _ _ ih => exact ih

/-- An event that does nothing is read: it gives an event that opens and closes the same, or none. -/
theorem run_inert_event (inert : e.Inert k s) (rest : List Event) :
    ∃ fs, Run k (.evaluated (.ofEvents (e :: rest))) s fs (.evaluated (.ofEvents rest)) s ∧
      ∀ d, fs.foldlM Event.nest d = e.nest d := by
  have computes : step k (.evaluated (.ofEvents (e :: rest))) s = evaluateEvent k e (.ofEvents rest) s := rfl
  have yields (e' : Event) (h : evaluateEvent k e (.ofEvents rest) s = .yield e' (.evaluated (.ofEvents rest)) s)
      (same : ∀ d, e'.nest d = e.nest d) :
        ∃ fs, Run k (.evaluated (.ofEvents (e :: rest))) s fs (.evaluated (.ofEvents rest)) s ∧
        ∀ d, fs.foldlM Event.nest d = e.nest d :=
    ⟨[e'], .single (computes.trans h), fun d => by simp [List.foldlM_cons, same]⟩
  cases e with
  | startTag p name as =>
    obtain ⟨as', computed⟩ := inert
    exact yields (.startTag p name as') (by simp only [evaluateEvent, computed]) fun _ => rfl
  | expression p x =>
    obtain ⟨value, computed, noStream⟩ := inert
    cases null : value.isNull with
    | true =>
      refine ⟨[], .silent (computes.trans ?_), fun _ => rfl⟩
      cases value with
      | stream id => exact absurd rfl (noStream id)
      | _ => simp [evaluateEvent, computed, null]
    | false =>
      refine yields (.text p value.toText) ?_ fun _ => rfl
      cases value with
      | stream id => exact absurd rfl (noStream id)
      | _ => simp [evaluateEvent, computed, null]
  | _ => exact yields _ rfl fun _ => rfl

/-- Events that do nothing are read, and nothing else happens. -/
theorem run_inert (inert : ∀ e ∈ es, e.Inert k s) (rest : List Event) :
    ∃ fs, Run k (.evaluated (.ofEvents (es ++ rest))) s fs (.evaluated (.ofEvents rest)) s ∧
      ∀ d, fs.foldlM Event.nest d = es.foldlM Event.nest d := by
  induction es with
  | nil => exact ⟨[], .refl _ _, fun _ => rfl⟩
  | cons e es ih =>
    obtain ⟨first, inert⟩ := List.forall_mem_cons.1 inert
    obtain ⟨fs, run, nest⟩ := ih inert
    obtain ⟨gs, before, nest'⟩ := run_inert_event first (es ++ rest)
    refine ⟨gs ++ fs, before.trans run, fun d => ?_⟩
    rw [List.foldlM_append, List.foldlM_cons, nest']
    exact congrArg _ (funext nest)

/-- Inside of a fallback nothing is read but the open elements. -/
theorem read_kept {i : Inclusion} (inside : i.inFallback = true) (deep : i.depth = d + 2) (nests : e.nest d = some d') :
    (Inclusion.read i e).Agrees { i with depth := d' + 2 } := by
  cases e with
  | startTag p name as =>
    cases nests
    simp only [Inclusion.read, inside, deep]
    exact ⟨rfl, rfl, rfl, rfl⟩
  | endTag p name =>
    simp only [Event.nest, Option.ite_none_left_eq_some, Option.some.injEq] at nests
    obtain ⟨isOpen, rfl⟩ := nests
    have deeper : ¬ (d + 2 = 2) := by omega
    simp only [Inclusion.read, inside, deep, deeper, decide_false, Bool.false_and, Bool.false_eq_true, if_false]
    exact ⟨rfl, rfl, by simp only; omega, rfl⟩
  | _ =>
    cases nests
    exact ⟨rfl, rfl, deep, rfl⟩

theorem reads_kept {i : Inclusion} (inside : i.inFallback = true) (deep : i.depth = d + 2)
    (nests : es.foldlM Event.nest d = some d') : (es.foldl Inclusion.read i).Agrees { i with depth := d' + 2 } := by
  induction es generalizing i d with
  | nil =>
    cases nests
    exact ⟨rfl, rfl, deep, rfl⟩
  | cons e es ih =>
    rw [List.foldlM_cons] at nests
    obtain ⟨mid, first, rest⟩ := Option.bind_eq_some_iff.1 nests
    have here := read_kept inside deep first
    have after := ih (here.inFallback.trans inside) here.depth rest
    exact ⟨after.position.trans here.position, after.attributes.trans here.attributes, after.depth,
      after.inFallback.trans here.inFallback⟩

/-- What is demanded of the two contents of a fallback where they are read: it is the fallback of an include element, the
template that the element names can be found, and computing their expressions does nothing. -/
structure Ignores (k : Nat) (es es' : List Event) (u : Stream) (s : Store) : Prop where
  included : ∃ filename i, u.includer? = some (filename, i) ∧ i.depth = 2 ∧ i.inFallback = true ∧
    s.finds (i.attributes.textOf "href") filename = true
  inert : (∀ e ∈ es, e.Inert k s) ∧ ∀ e ∈ es', e.Inert k s

theorem of_includer {filename filename' : Text} {prefixes : List Text} {i j : Inclusion}
    (h : (including filename prefixes i u).includer? = some (filename', j)) :
    ∃ es, u = .evaluated (.ofEvents es) ∧ filename = filename' ∧ i = j := by
  cases u with
  | evaluated u =>
    cases u with
    | replay r =>
      cases r with
      | plain es =>
        cases h
        exact ⟨es, rfl, rfl, rfl⟩
      | _ => cases h
    | _ => cases h
  | _ => cases h

/-- The contents are read, and what has been kept of the fallbacks differs from then on. -/
theorem run_facing {ns ns' : List Part} {rest : List Event}
    (h : Facing (Parted (Part.eventsOf ns ++ rest) (Part.eventsOf ns' ++ rest)) u v)
    (ignores : Ignores k (Part.eventsOf ns) (Part.eventsOf ns') u s) :
    ∃ x y, Run k u s [] x s ∧ Run k v s [] y s ∧ Around (Keeping s) x y := by
  obtain ⟨⟨filename, i, includer, deep, inside, finds⟩, inert, inert'⟩ := ignores
  have silent {wrap wrap' : Stream → Stream} {u v : Stream}
      (wraps : ∀ {x y}, Around (Keeping s) x y → Around (Keeping s) (wrap x) (wrap' y))
      (skips : ∀ {u v : Stream} {s t : Store}, step k u s = .skip v t → step k (wrap u) s = .skip (wrap v) t)
      (skips' : ∀ {u v : Stream} {s t : Store}, step k u s = .skip v t → step k (wrap' u) s = .skip (wrap' v) t)
      (inner : ∃ x y, Run k u s [] x s ∧ Run k v s [] y s ∧ Around (Keeping s) x y) :
      ∃ x y, Run k (wrap u) s [] x s ∧ Run k (wrap' v) s [] y s ∧ Around (Keeping s) x y := by
    obtain ⟨x, y, left, right, around⟩ := inner
    exact ⟨wrap x, wrap' y, .lift wrap skips left, .lift wrap' skips' right, wraps around⟩
  induction h with
  | here related =>
    obtain ⟨rfl, rfl⟩ := related
    cases includer
  | evaluated source ih | included _ _ source ih => cases includer
  | tidied text? source ih =>
    exact silent (.tidied none text?) (fun first => by simp [step, stepTidied, first])
      (fun first => by simp [step, stepTidied, first]) (ih includer)
  | substituted path body openElements source ih =>
    exact silent (.substituted path body openElements) (fun first => by simp [step, stepSubstituted, first, Advance.map])
      (fun first => by simp [step, stepSubstituted, first, Advance.map]) (ih includer)
  | matching path body openElements p depth matched source ih =>
    exact silent (.matching path body openElements p depth matched) (fun first => by simp [step, stepMatching, first])
      (fun first => by simp [step, stepMatching, first]) (ih includer)
  | expanded file filters last source ih =>
    exact silent (.expanded file filters last) (fun first => by simp [step, stepExpanded, first])
      (fun first => by simp [step, stepExpanded, first]) (ih includer)
  | @including u v file prefixes j source ih =>
    -- here the contents are read
    obtain ⟨es, rfl, rfl, rfl⟩ := of_includer includer
    cases source with
    | here related => cases related.1
    | evaluated source =>
      obtain ⟨same, rfl⟩ : Parted _ _ _ _ := by
        cases source with
        | here related => exact related
      cases same
      obtain ⟨fs, run, nest⟩ := run_inert inert rest
      obtain ⟨fs', run', nest'⟩ := run_inert inert' rest
      have nested (ns : List Part) : (Part.eventsOf ns).foldlM Event.nest 1 = some 1 := Part.nest_eventsOf ns 1
      refine ⟨_, _, run_including file prefixes run deep ((nest 1).trans (nested ns)),
        run_including file prefixes run' deep ((nest' 1).trans (nested ns')), .here ?_⟩
      have left := reads_kept (d := 0) inside deep ((nest 0).trans (Part.nest_eventsOf ns 0))
      have right := reads_kept (d := 0) inside deep ((nest' 0).trans (Part.nest_eventsOf ns' 0))
      refine ⟨file, prefixes, _, _, _, rfl, rfl, ⟨left.position.trans right.position.symm,
        left.attributes.trans right.attributes.symm, left.depth.trans right.depth.symm,
        left.inFallback.trans right.inFallback.symm⟩, ?_⟩
      rw [left.attributes]
      exact finds

/-! ## Behind the content -/

/-- An include element that is complete is replaced by its template, whatever has been kept of its fallbacks. -/
theorem insert_kept {filename : Text} {prefixes : List Text} {i j : Inclusion} (agrees : i.Agrees j)
    (finds : s.finds (i.attributes.textOf "href") filename = true) (u : Stream) :
    insert filename prefixes i u s = insert filename prefixes j u s := by
  simp only [insert, ← agrees.attributes, ← agrees.position]
  split
  · split
    · rfl
    · rename_i l library
      split
      · rfl
      · rename_i f s' failed
        have here := Store.load_of_finds library finds failed
        have refused (i : Inclusion) :
          fallBack filename prefixes i f u s' = .fail (.fault f) (.included filename prefixes u) s' := by
          cases f with
          | templateNotFound sought tried => exact absurd rfl (here sought tried)
          | _ => rfl
        rw [refused, refused]
  · rfl

theorem read_agrees {i j : Inclusion} (agrees : i.Agrees j) (e : Event) :
    (Inclusion.read i e).Agrees (Inclusion.read j e) := by
  obtain ⟨position, attributes, depth, inFallback⟩ := agrees
  cases e with
  | startTag p name as =>
    simp only [Inclusion.read, depth, inFallback]
    split <;> exact ⟨position, attributes, rfl, rfl⟩
  | endTag p name =>
    simp only [Inclusion.read, depth, inFallback]
    split <;> exact ⟨position, attributes, rfl, rfl⟩
  | _ => exact ⟨position, attributes, depth, inFallback⟩

theorem attributes_read (i : Inclusion) (e : Event) : (Inclusion.read i e).attributes = i.attributes := by
  cases e with
  | startTag | endTag =>
    simp only [Inclusion.read]
    split <;> rfl
  | _ => rfl

theorem close_kept (h : Keeping q u v) (s : Store) : u.close s = v.close s := by
  obtain ⟨filename, prefixes, i, j, x, rfl, rfl, -⟩ := h
  rfl

theorem step_kept (h : Keeping q u v) (places : q.SamePlaces s) : (step k u s).Around (Keeping q) (step k v s) := by
  obtain ⟨filename, prefixes, i, j, x, rfl, rfl, agrees, finds⟩ := h
  simp only [step]
  have after := (step_changes k x s).samePlaces
  generalize step k x s = a at after
  have found := (places.trans after).finds.trans finds
  cases a with
  | yield e y t =>
    have reads := read_agrees agrees e
    simp only [stepIncluding, ← reads.depth]
    split
    · rw [insert_kept reads (by rwa [attributes_read])]
      exact .refl _
    · exact .skip _ (.here ⟨_, _, _, _, _, rfl, rfl, reads, by rwa [attributes_read]⟩)
  | skip y t => exact .skip _ (.here ⟨_, _, _, _, _, rfl, rfl, agrees, finds⟩)
  | done y t =>
    have same : insert filename prefixes i y t = insert filename prefixes j y t := insert_kept agrees found y
    simp only [stepIncluding, same]
    exact .refl _
  | fail why y t => exact .refl _

theorem facing_nothing (h : Facing (fun _ _ => False) u v) : False := by
  induction h with
  | here related => exact related
  | _ => assumption

/-- From then on both streams come to the same. -/
theorem comes_kept (h : Around (Keeping q) u v) (places : q.SamePlaces s) (comes : Comes k u s a) :
    ∃ c, Comes k v s c ∧ a.Around (Keeping q) c ∧ q.SamePlaces a.store := by
  rcases comes_around (fun around places => around.step (fun _ _ => close_kept) fun _ _ related => .inl (step_kept related places))
    (fun u places => places.trans (step_changes k u _).samePlaces) h places comes with next | ⟨_, _, _, _, _, facing, _⟩
  · exact next
  · exact absurd facing facing_nothing

/-! ## All of a run -/

theorem parted_symm (u v : Stream) (h : Parted b b' u v) : Parted b' b v u := ⟨h.2, h.1⟩

theorem before_symm (u v : Stream) (h : Before b b' u v) : Before b' b v u := by
  obtain ⟨es, left, right⟩ := h
  exact ⟨es, right, left⟩

theorem kept_symm (u v : Stream) (h : Keeping q u v) : Keeping q v u := by
  obtain ⟨filename, prefixes, i, j, x, rfl, rfl, ⟨position, attributes, depth, inFallback⟩, finds⟩ := h
  exact ⟨filename, prefixes, j, i, x, rfl, rfl, ⟨position.symm, attributes.symm, depth.symm, inFallback.symm⟩,
    attributes ▸ finds⟩

/-- Where the lists part, both streams go on to include elements of which different fallbacks have been kept. -/
def Rejoins (k : Nat) (u v : Stream) (s : Store) : Prop :=
  ∃ x y, Run k u s [] x s ∧ Run k v s [] y s ∧ Around (Keeping s) x y

/-- The streams differ in the content of a fallback that is ignored, or in what has been kept of it. -/
def Linked (k : Nat) (b b' : List Event) (u v : Stream) (s : Store) : Prop :=
  (Around (Before b b') u v ∧ ∀ es x y q, Run k u s es x q → Run k v s es y q → Facing (Parted b b') x y → Rejoins k x y q) ∨
    ∃ q : Store, Around (Keeping q) u v ∧ q.SamePlaces s

theorem Linked.symm (h : Linked k b b' u v s) : Linked k b' b v u s := by
  rcases h with ⟨around, rejoins⟩ | ⟨q, around, places⟩
  · refine .inl ⟨around.symm before_symm, fun es y x q right left facing => ?_⟩
    obtain ⟨x', y', on, on', around⟩ := rejoins es x y q left right (facing.symm parted_symm)
    exact ⟨y', x', on', on, around.symm kept_symm⟩
  · exact .inr ⟨q, around.symm kept_symm, places⟩

/-- Linked streams come to the same next, and stay linked. -/
theorem Linked.comes (h : Linked k b b' u v s) (comes : Comes k u s a) : ∃ c, Comes k v s c ∧ a.Pairs (Linked k b b') c := by
  have later {u v : Stream} {s q : Store} (around : Around (Keeping q) u v) (places : q.SamePlaces s)
      (comes : Comes k u s a) :
      ∃ c, Comes k v s c ∧ a.Pairs (Linked k b b') c := by
    obtain ⟨c, comes', next, places⟩ := comes_kept around places comes
    refine ⟨c, comes', next.pairs comes.shows ?_⟩
    rintro e u v s rfl rfl streams
    exact .inr ⟨q, streams, places⟩
  rcases h with ⟨around, rejoins⟩ | ⟨q, around, places⟩
  · rcases comes_before around comes with ⟨c, comes', next⟩ | ⟨x, y, q, left, right, facing, comes⟩
    · refine ⟨c, comes', next.pairs comes.shows ?_⟩
      rintro e u v s rfl rfl streams
      refine .inl ⟨streams, fun es x y q left right => ?_⟩
      obtain ⟨-, x₁, s₁, run, last⟩ := comes
      obtain ⟨-, y₁, t₁, run', last'⟩ := comes'
      exact rejoins (e :: es) x y q (run.trans (.yield last left)) (run'.trans (.yield last' right))
    · obtain ⟨x', y', on, on', around⟩ := rejoins [] x y q left right facing
      obtain ⟨c, comes', pairs⟩ := later around ⟨rfl, rfl⟩ (comes.behind on)
      exact ⟨c, comes'.after (right.trans on'), pairs⟩
  · exact later around places comes

theorem Linked.renders {w : Xml.Writer} {o : Except Stop Text} (h : Linked k b b' u v s) (renders : Xml.Renders k w u s o) :
    Xml.Renders k w v s o := by
  induction renders generalizing v with
  | write next fine _ ih =>
    obtain ⟨c, comes, pairs⟩ := h.comes next
    cases pairs with
    | yield _ linked => exact .write comes fine (ih linked)
  | unwritable next fault =>
    obtain ⟨c, comes, pairs⟩ := h.comes next
    cases pairs
    exact .unwritable comes fault
  | done next =>
    obtain ⟨c, comes, pairs⟩ := h.comes next
    cases pairs
    exact .done comes
  | fail next =>
    obtain ⟨c, comes, pairs⟩ := h.comes next
    cases pairs
    exact .fail comes

/-- **A fallback that is not used has no effect**, if computing its expressions has none.

Two streams differ in a list of events, in some parts of it that have others in their place. If these are the content of
the fallback of an include element wherever they are read, the template that the element names can be found there, and
computing the expressions of both contents does nothing, then both streams render to the same. -/
theorem renders_unused {ns ns' : List Part} {rest : List Event}
    (h : Around (Before (Part.eventsOf ns ++ rest) (Part.eventsOf ns' ++ rest)) u v)
    (ignored : ∀ es x q, Run k u s es x q → x.upcoming? = some (Part.eventsOf ns ++ rest) →
      Ignores k (Part.eventsOf ns) (Part.eventsOf ns') x q) (w : Xml.Writer) (o : Except Stop Text) :
    Xml.Renders k w u s o ↔ Xml.Renders k w v s o := by
  have linked : Linked k (Part.eventsOf ns ++ rest) (Part.eventsOf ns' ++ rest) u v s :=
    .inl ⟨h, fun es x y q left _ facing => run_facing facing (ignored es x q left (upcoming_of_facing facing))⟩
  exact ⟨linked.renders, linked.symm.renders⟩

end Stream

end Stencil
