import Stencil.Proofs.Document.Enclosed
import Stencil.Proofs.Stream.Fallback
import Stencil.Proofs.Stream.Substitution

/-!
# Streams with included templates

What an include stream reads falls into passages: events that are handed on or dropped, and include elements, each of
which is replaced as a whole. An include element is replaced by the expansion of the template it names, its texts
indented, or by the content of its fallbacks if there is no such template (`Stream.Replaces`). Every run of the stream
that comes to its end is woven of such passages (`Stream.weaves_of_completes`), and what is woven of them is a run
(`Stream.completes_of_weaves`).
-/

open Stencil.Stream

namespace Stencil

/-- The start tag of an include element. -/
def Event.isInclude : Event → Bool
  | startTag _ name _ => name.same includeName
  | _ => false

/-- A text is indented; other events stay as they are. -/
def Event.indent (columns : Nat) : Event → Event
  | text p t => text p (t.indent columns)
  | e => e

/-- Elements that were open before do not matter. -/
theorem Event.nest_frame {es : List Event} {d d' : Nat} (h : es.foldlM nest d = some d') (outer : Nat) :
    es.foldlM nest (d + outer) = some (d' + outer) := by
  induction es generalizing d with
  | nil =>
    cases h
    rfl
  | cons e es ih =>
    rw [List.foldlM_cons] at h ⊢
    obtain ⟨mid, first, rest⟩ := Option.bind_eq_some_iff.1 h
    have next : nest (d + outer) e = some (mid + outer) := by
      cases e with
      | startTag =>
        cases first
        exact congrArg some (by omega)
      | endTag =>
        simp only [nest] at first ⊢
        split at first
        · cases first
        · cases first
          rw [if_neg (by omega)]
          exact congrArg some (by omega)
      | _ =>
        cases first
        rfl
    exact Option.bind_eq_some_iff.2 ⟨_, next, ih rest⟩

theorem Text.indent_zero (t : Text) : t.indent 0 = t := by
  induction t with
  | nil => rfl
  | cons c t ih =>
    rw [indent, List.flatMap_cons]
    change _ ++ indent 0 t = _
    rw [ih]
    split <;> rfl

theorem Event.map_indent_zero (es : List Event) : es.map (indent 0) = es := by
  refine List.map_id'' (fun e => ?_) es
  cases e with
  | text p t => exact congrArg (text p) t.indent_zero
  | _ => rfl

/-- A part of what an include stream reads. -/
inductive Passage where
  | event (e : Event)
  /-- an include element, what takes its place, and the filters that the stream behind it gets -/
  | element (n : Part) (inserted : List Event) (filters : List Filter)
  /-- an include element in which the stream ends -/
  | cut (es : List Event)

namespace Passage

/-- The events of a passage as they are read. -/
def read : Passage → List Event
  | event e => [e]
  | element n _ _ => n.events
  | cut es => es

/-- The events that are in no include element. -/
def outside : Passage → List Event
  | event e => [e]
  | _ => []

/-- What is written of some passages: events are dropped if they are noted as ones of the include namespace. -/
def written (noted : List Text) : List Passage → List Event
  | [] => []
  | event e :: ps =>
    let rest := written (Event.note List.insert Template.includeNamespace noted e) ps
    if Event.isNoted Template.includeNamespace noted e then rest else e :: rest
  | element _ inserted _ :: ps => inserted ++ written noted ps
  | cut _ :: _ => []

/-- What replacing the include elements gives. Only declarations of the include namespace and their ends are left out; for
this it is known what is open. -/
def replaced (brackets : List Bracket) : List Passage → List Event
  | [] => []
  | event e :: ps =>
    let rest := replaced ((Event.enclose brackets e).getD []) ps
    if Event.belongs Template.includeNamespace brackets e then rest else e :: rest
  | element _ inserted _ :: ps => inserted ++ replaced brackets ps
  | cut _ :: _ => []

/-- No include element is cut off. -/
def isWhole : Passage → Bool
  | cut _ => false
  | _ => true

theorem outside_sublist_read (ps : List Passage) : (ps.flatMap outside).Sublist (ps.flatMap read) := by
  induction ps with
  | nil => exact .slnil
  | cons p ps ih =>
    rw [List.flatMap_cons, List.flatMap_cons]
    refine List.Sublist.append ?_ ih
    cases p with
    | event e => exact .refl [e]
    | _ => exact List.nil_sublist _

/-- If no prefix is declared twice, none is declared again outside of the include elements. -/
theorem redeclares_outside {ps : List Passage} (once : (Event.prefixesOf (ps.flatMap read)).Nodup) (uri : Text) :
    Event.anyWithin (Event.redeclares uri) [] (ps.flatMap outside) = false :=
  Event.redeclares_of_nodup (by simp) (once.sublist (.filterMap _ (outside_sublist_read ps)))

/-- If what is noted are the events of the include namespace, nothing else is dropped. -/
theorem written_eq_replaced {noted : List Text} {brackets outer : List Bracket} {ps : List Passage}
    (inPairs : Event.InPairs List.insert Template.includeNamespace brackets noted (ps.flatMap outside))
    (pairsUp : Event.encloseAll brackets (ps.flatMap outside) = some outer) : written noted ps = replaced brackets ps := by
  induction ps generalizing noted brackets with
  | nil => rfl
  | cons p ps ih =>
    rw [List.flatMap_cons] at inPairs pairsUp
    cases p with
    | event e =>
      obtain ⟨inner, step, after⟩ := Event.encloseAll_cons_some pairsUp
      obtain ⟨here, rest⟩ := Event.InPairs.next inPairs step
      rw [written, replaced, here, step, Option.getD_some, ih rest after]
    | element n inserted fs => rw [written, replaced, ih inPairs pairsUp]
    | cut => rfl

end Passage

namespace Stream

variable {k n d d' : Nat} {filename : Text} {noted : List Text} {p : Position} {name : QName} {as : Attributes}
  {ns : List Part} {u v w x : Stream} {s t r q : Store} {e : Event} {es fs out : List Event} {i : Inclusion}
  {ps : List Passage} {brackets outer : List Bracket}

/-- What takes the place of the include element at a position, with its attributes and children; the filters of the
template are from then on those of the including one too. -/
inductive Replaces (k : Nat) (filename : Text) (p : Position) (as : Attributes) (ns : List Part) (s : Store) :
    List Event → List Filter → Store → Prop
  | template {l : Library} {t : Template} {s' : Store} {es : List Event} {w : Stream} {r : Store}
      (named : as.has "href" = true) (library : s.library? = some l)
      (loaded : s.load l (as.textOf "href") filename = (.ok t, s')) (expands : Completes k t.expansion s' es none w r) :
      Replaces k filename p as ns s (es.map (Event.indent p.column.toNat)) t.filters (w.close r)
  | fallback {l : Library} {sought : Text} {tried : List Text} {s' : Store} {es : List Event}
      (named : as.has "href" = true) (library : s.library? = some l)
      (missing : s.load l (as.textOf "href") filename = (.error (.templateNotFound sought tried), s'))
      (content : Part.fallback? ns = some es) :
      Replaces k filename p as ns s es []
        (s'.report .warning ((Fault.templateNotFound sought tried).message ++ ", using the fallback content instead"))

/-- What an include stream reads, passage by passage, and what comes out of it; last, the stream and the store at the
end. Nothing is said about what comes after an include element that is cut off. -/
inductive Weaves (k : Nat) (filename : Text) :
    List Text → Stream → Store → List Passage → List Event → Stream → Store → Prop
  | ended {noted : List Text} {u w : Stream} {s r : Store} (last : Completes k u s [] none w r) :
      Weaves k filename noted u s [] [] (.included filename noted w) r
  | event {noted : List Text} {u v w : Stream} {s t r : Store} {e : Event} {ps : List Passage} {out : List Event}
      (first : Run k u s [e] v t) (other : e.isInclude = false)
      (rest : Weaves k filename (Event.note List.insert Template.includeNamespace noted e) v t ps out w r) :
      Weaves k filename noted u s (.event e :: ps)
        (if Event.isNoted Template.includeNamespace noted e then out else e :: out) w r
  | element {noted : List Text} {u v v' w : Stream} {s t t' t'' r : Store} {p : Position} {name : QName} {as : Attributes}
      {ns : List Part} {o : Position} {endName : QName} {inserted : List Event} {fs : List Filter} {ps : List Passage}
      {out : List Event} (inside : Run k u s (.startTag p name as :: Part.eventsOf ns) v t)
      (ends : step k v t = .yield (.endTag o endName) v' t') (isInclude : name.same includeName = true)
      (replaces : Replaces k filename p as ns t' inserted fs t'')
      (rest : Weaves k filename noted (v'.filtered fs) t'' ps out w r) :
      Weaves k filename noted u s (.element (.element p name as ns o endName) inserted fs :: ps)
        (inserted ++ out) w r
  | cut {noted : List Text} {u v w : Stream} {s t r : Store} {p : Position} {name : QName} {as : Attributes}
      {inside out : List Event} {d : Nat} (last : Completes k u s (.startTag p name as :: inside) none v t)
      (isOpen : inside.foldlM Event.nest 0 = some d) :
      Weaves k filename noted u s [.cut (.startTag p name as :: inside)] out w r

theorem Weaves.after (before : Run k u s [] v t) (h : Weaves k filename noted v t ps out w r) :
    Weaves k filename noted u s ps out w r := by
  cases h with
  | ended last => exact .ended (last.after before)
  | event first other rest => exact .event (before.trans first) other rest
  | element inside ends isInclude replaces rest => exact .element (before.trans inside) ends isInclude replaces rest
  | cut last isOpen => exact .cut (last.after before) isOpen

/-- What comes out is what is written of the passages. -/
theorem Weaves.written (h : Weaves k filename noted u s ps out w r) (whole : ∀ p ∈ ps, p.isWhole = true) :
    out = Passage.written noted ps := by
  induction h with
  | ended => rfl
  | event first other rest ih => rw [Passage.written, ih (List.forall_mem_cons.1 whole).2]
  | element inside ends isInclude replaces rest ih => rw [Passage.written, ih (List.forall_mem_cons.1 whole).2]
  | cut => cases (List.forall_mem_cons.1 whole).1

/-- In a stream whose tags pair up, no include element is cut off. -/
theorem Weaves.whole (h : Weaves k filename noted u s ps out w r)
    (nested : (ps.flatMap Passage.read).foldlM Event.nest d = some 0) : ∀ p ∈ ps, p.isWhole = true := by
  induction h generalizing d with
  | ended => simp
  | event first other rest ih =>
    rw [List.flatMap_cons, List.foldlM_append] at nested
    obtain ⟨mid, -, nested⟩ := Option.bind_eq_some_iff.1 nested
    exact List.forall_mem_cons.2 ⟨rfl, ih nested⟩
  | element inside ends isInclude replaces rest ih =>
    rw [List.flatMap_cons, List.foldlM_append] at nested
    obtain ⟨mid, -, nested⟩ := Option.bind_eq_some_iff.1 nested
    exact List.forall_mem_cons.2 ⟨rfl, ih nested⟩
  | @cut _ _ _ _ _ _ _ p name as inside _ d' last isOpen =>
    rw [List.flatMap_cons, List.flatMap_nil, List.append_nil] at nested
    change (Event.startTag p name as :: inside).foldlM Event.nest d = some 0 at nested
    rw [List.foldlM_cons] at nested
    change inside.foldlM Event.nest (d + 1) = some 0 at nested
    have deeper := Event.nest_frame isOpen (d + 1)
    rw [Nat.zero_add, nested] at deeper
    cases deeper

/-- What is outside of the include elements pairs up. -/
theorem Weaves.outside (h : Weaves k filename noted u s ps out w r)
    (reads : Event.encloseAll brackets (ps.flatMap Passage.read) = some outer) (whole : ∀ p ∈ ps, p.isWhole = true) :
    Event.encloseAll brackets (ps.flatMap Passage.outside) = some outer := by
  induction h generalizing brackets with
  | ended => exact reads
  | event first other rest ih =>
    obtain ⟨inner, step, after⟩ := Event.encloseAll_cons_some reads
    rw [List.flatMap_cons]
    change Event.encloseAll brackets (_ :: _) = _
    rw [Event.encloseAll, List.foldlM_cons, step]
    exact ih after (List.forall_mem_cons.1 whole).2
  | element inside ends isInclude replaces rest ih =>
    rw [List.flatMap_cons, Event.encloseAll, List.foldlM_append] at reads
    obtain ⟨inner, element, after⟩ := Option.bind_eq_some_iff.1 reads
    rw [Part.encloseAll_element element] at after
    exact ih after (List.forall_mem_cons.1 whole).2
  | cut => cases (List.forall_mem_cons.1 whole).1

/-- What is replaced are include elements. -/
theorem Weaves.includes (h : Weaves k filename noted u s ps out w r) :
    ∀ n inserted fs, .element n inserted fs ∈ ps → ∃ e ∈ n.events, e.isInclude = true := by
  induction h with
  | ended | cut => simp
  | event first other rest ih => exact fun n inserted fs member => ih n inserted fs (by simpa using member)
  | element inside ends isInclude replaces rest ih =>
    intro n inserted fs member
    rcases List.mem_cons.1 member with same | member
    · cases same
      rw [Part.events]
      exact ⟨_, List.mem_cons_self, isInclude⟩
    · exact ih n inserted fs member

/-! ## Steps -/

theorem run_included_silent (h : Run k u s [] v t) :
    Run k (.included filename noted u) s [] (.included filename noted v) t :=
  h.through (.included filename noted)

/-- An event outside of include elements is handed on or dropped. -/
theorem step_included_event (first : step k u s = .yield e v t) (other : e.isInclude = false) (filename : Text)
    (noted : List Text) :
    step k (.included filename noted u) s =
      let x := Stream.included filename (Event.note List.insert Template.includeNamespace noted e) v
      if Event.isNoted Template.includeNamespace noted e then .skip x t else .yield e x t := by
  cases e with
  | startNamespace p pre uri =>
    cases own : uri == Template.includeNamespace <;>
      simp [step, stepIncluded, first, own, Event.isNoted, Event.note, List.insert]
  | endNamespace p pre =>
    cases isNoted : noted.contains pre with
    | true => simp only [step, stepIncluded, first, Event.isNoted, Event.note, isNoted, if_true]
    | false =>
      have absent : pre ∉ noted := by simpa using isNoted
      simp only [step, stepIncluded, first, Event.isNoted, Event.note, isNoted, List.erase_of_not_mem absent]
  | startTag p name as =>
    have notInclude : name.same includeName = false := other
    simp [step, stepIncluded, first, notInclude, Event.isNoted, Event.note]
  | _ =>
    simp only [step, stepIncluded, first]
    rfl

/-- The event, unless it is dropped. -/
theorem run_included_event (filename : Text) (noted : List Text) (first : step k u s = .yield e v t)
    (other : e.isInclude = false) :
    Run k (.included filename noted u) s (if Event.isNoted Template.includeNamespace noted e then [] else [e])
      (.included filename (Event.note List.insert Template.includeNamespace noted e) v) t := by
  have next := step_included_event first other filename noted
  dsimp only at next
  split at next
  · rename_i isNoted
    rw [if_pos isNoted]
    exact .silent next
  · rename_i isNoted
    rw [if_neg isNoted]
    exact .single next

theorem step_included_include (first : step k u s = .yield (.startTag p name as) v t)
    (isInclude : name.same includeName = true) :
    step k (.included filename noted u) s = .skip (.including filename noted (Inclusion.opened p as) v) t := by
  simp [step, stepIncluded, first, isInclude]

/-- The open elements are counted along. -/
theorem depth_read (deep : i.depth = d + 1) (nests : e.nest d = some d') : (Inclusion.read i e).depth = d' + 1 := by
  cases e with
  | startTag =>
    cases nests
    simp only [Inclusion.read]
    split
    · rename_i top
      simp only [Bool.and_eq_true, decide_eq_true_eq] at top
      dsimp only
      omega
    · dsimp only
      omega
  | endTag =>
    simp only [Event.nest, Option.ite_none_left_eq_some, Option.some.injEq] at nests
    simp only [Inclusion.read]
    split
    · rename_i last
      simp only [Bool.and_eq_true, decide_eq_true_eq] at last
      dsimp only
      omega
    · dsimp only
      omega
  | _ =>
    cases nests
    exact deep

/-- Inside of an include element, all events are read. -/
theorem run_including (filename : Text) (noted : List Text) (h : Run k u s es v t) (deep : i.depth = d + 1)
    (inside : es.foldlM Event.nest d = some d') :
    Run k (.including filename noted i u) s [] (.including filename noted (es.foldl Inclusion.read i) v) t := by
  have silent {i : Inclusion} {u v : Stream} {s t : Store} (h : Run k u s [] v t) :
      Run k (.including filename noted i u) s [] (.including filename noted i v) t :=
    h.through (.including filename noted i)
  induction es generalizing u s d i with
  | nil => exact silent h
  | cons e es ih =>
    obtain ⟨u', s', v', t', before, yields, after⟩ := Run.head h
    rw [List.foldlM_cons] at inside
    obtain ⟨mid, nests, rest⟩ := Option.bind_eq_some_iff.1 inside
    have deeper := depth_read deep nests
    have reads : step k (.including filename noted i u') s' = .skip (.including filename noted (Inclusion.read i e) v') t' := by
      simp only [step, stepIncluding, yields, deeper]
      rfl
    exact (silent before).trans (.skip reads (ih after deeper rest))

/-- An include element that has been read up to its end tag. -/
theorem read_element (ns : List Part) (p : Position) (as : Attributes) (o : Position) (endName : QName) :
    (Part.eventsOf ns ++ [Event.endTag o endName]).foldl Inclusion.read (Inclusion.opened p as) =
      ⟨p, as, 0, false, (Part.fallback? ns).map List.reverse⟩ := by
  rw [List.foldl_append, read_children]
  simp [Inclusion.read]

/-- What is inserted comes out with its texts indented. -/
theorem run_inserting (h : Completes k x s es none w r) :
    Run k (.inserting filename noted n x u) s (es.map (Event.indent n)) (.included filename noted u) (w.close r) := by
  obtain ⟨v, t, run, last⟩ := h
  induction run with
  | refl => exact .silent (by simp [step, stepInserting, last, final])
  | skip first _ ih => exact .skip (by simp [step, stepInserting, first, Advance.map]) (ih last)
  | @yield _ _ _ _ _ _ e _ first _ ih =>
    refine .yield ?_ (ih last)
    cases e <;> simp [step, stepInserting, first, Advance.map, Event.indent]

theorem completes_ofEvents (es : List Event) (s : Store) : Completes k (.ofEvents es) s es none .empty s := by
  induction es with
  | nil => exact ⟨_, _, .refl _ _, rfl⟩
  | cons e es ih =>
    obtain ⟨v, t, run, last⟩ := ih
    exact ⟨v, t, .yield rfl run, last⟩

theorem run_ofEvents (h : Run k (.ofEvents es) s fs v t) : ∃ rest, es = fs ++ rest ∧ v = .ofEvents rest ∧ t = s := by
  generalize start : Stream.ofEvents es = u at h
  induction h generalizing es with
  | refl => exact ⟨es, rfl, start.symm, rfl⟩
  | skip first _ ih =>
    subst start
    cases es <;> cases first
  | yield first _ ih =>
    subst start
    cases es with
    | nil => cases first
    | cons e es =>
      cases first
      obtain ⟨rest, rfl, next⟩ := ih rfl
      exact ⟨rest, rfl, next⟩

/-- Of a list of events, all are read, unless filters are put in between. -/
theorem Weaves.reads (h : Weaves k filename noted (.ofEvents es) s ps out w r)
    (unfiltered : ∀ n inserted fs, .element n inserted fs ∈ ps → fs = []) : ps.flatMap Passage.read = es := by
  generalize start : Stream.ofEvents es = u at h
  induction h generalizing es with
  | ended last =>
    subst start
    exact (Completes.unique last (completes_ofEvents es _)).1
  | event first other rest ih =>
    subst start
    obtain ⟨others, rfl, rfl, rfl⟩ := run_ofEvents first
    have after := ih (fun n inserted fs member => unfiltered n inserted fs (List.mem_cons_of_mem _ member)) rfl
    rw [List.flatMap_cons, after]
    rfl
  | element inside ends isInclude replaces rest ih =>
    subst start
    obtain ⟨others, rfl, rfl, rfl⟩ := run_ofEvents inside
    cases others with
    | nil => cases ends
    | cons e others =>
      cases ends
      obtain rfl := unfiltered _ _ _ List.mem_cons_self
      have after := ih (fun n inserted fs member => unfiltered n inserted fs (List.mem_cons_of_mem _ member)) rfl
      rw [List.flatMap_cons, after]
      simp [Passage.read, Part.events]
  | cut last isOpen =>
    subst start
    rw [(Completes.unique (completes_ofEvents es _) last).1, List.flatMap_singleton]
    rfl

/-- Replacing an include element gives no event yet. -/
theorem insert_silent (filename : Text) (noted : List Text) (i : Inclusion) (u : Stream) (s : Store) :
    (∃ n x v q, insert filename noted i u s = .skip (.inserting filename noted n x v) q) ∨
      ∃ why x q, insert filename noted i u s = .fail why x q := by
  unfold insert
  dsimp only
  split
  · split
    · exact .inr ⟨_, _, _, rfl⟩
    · split
      · exact .inl ⟨_, _, _, _, rfl⟩
      · unfold fallBack
        split
        · exact .inl ⟨_, _, _, _, rfl⟩
        · exact .inr ⟨_, _, _, rfl⟩
  · exact .inr ⟨_, _, _, rfl⟩

/-- An include element that has been read is replaced. -/
theorem insert_of_replaces {fs : List Filter} (h : Replaces k filename p as ns s es fs t) (noted : List Text) (u : Stream) :
    ∃ n x w q r gs, insert filename noted ⟨p, as, 0, false, (Part.fallback? ns).map List.reverse⟩ u s =
        .skip (.inserting filename noted n x (u.filtered fs)) q ∧
      Completes k x q gs none w r ∧ w.close r = t ∧ gs.map (Event.indent n) = es := by
  cases h with
  | @template l t s' es w r named library loaded expands =>
    refine ⟨p.column.toNat, t.expansion, w, s', r, es, ?_, expands, rfl, rfl⟩
    simp only [insert, named, library, loaded, if_true]
  | @fallback l sought tried s' es named library missing content =>
    refine ⟨0, .ofEvents es, .empty, s'.report .warning _, _, es, ?_, completes_ofEvents es _, rfl, Event.map_indent_zero es⟩
    simp only [insert, named, library, missing, content, fallBack, if_true, Option.map_some, List.reverse_reverse]
    rfl

theorem replaces_of_insert (h : insert filename noted ⟨p, as, 0, false, (Part.fallback? ns).map List.reverse⟩ u s =
      .skip (.inserting filename noted n x v) q) (expands : Completes k x q es none w r) :
    ∃ fs : List Filter, Replaces k filename p as ns s (es.map (Event.indent n)) fs (w.close r) ∧ v = u.filtered fs := by
  simp only [insert] at h
  split at h
  · rename_i named
    split at h
    · cases h
    · rename_i l library
      split at h
      · rename_i t s' loaded
        cases h
        exact ⟨t.filters, .template named library loaded expands, rfl⟩
      · rename_i f s' loaded
        unfold fallBack at h
        split at h
        · rename_i sought tried kept found
          obtain ⟨content, fallback, reversed⟩ := Option.map_eq_some_iff.1 found
          cases h
          rw [← reversed, List.reverse_reverse] at expands
          obtain ⟨rfl, -, rfl, rfl⟩ := Completes.unique expands (completes_ofEvents content _)
          refine ⟨[], ?_, rfl⟩
          rw [Event.map_indent_zero]
          exact .fallback named library loaded fallback
        · cases h
  · cases h

/-! ## Runs made of passages -/

/-- **What is woven of passages is a run.** -/
theorem completes_of_weaves (h : Weaves k filename noted u s ps out w r) (whole : ∀ p ∈ ps, p.isWhole = true) :
    Completes k (.included filename noted u) s out none w r := by
  induction h with
  | ended last =>
    obtain ⟨v, t, run, last⟩ := last
    exact ⟨_, t, run_included_silent run, by simp [step, stepIncluded, last, final, Advance.map]⟩
  | @event noted u v w s t r e ps out first other rest ih =>
    obtain ⟨u', s', v', t', before, yields, after⟩ := Run.head first
    have comes := (run_included_silent before).trans (run_included_event filename noted yields other)
    have whole := (ih (List.forall_mem_cons.1 whole).2).after (comes.trans (run_included_silent after))
    split at whole
    · rename_i isNoted
      rwa [if_pos isNoted]
    · rename_i isNoted
      rwa [if_neg isNoted]
  | @element noted u v v' w s t t' t'' r p name as ns o endName inserted fs ps out inside ends isInclude replaces rest ih =>
    obtain ⟨u₁, s₁, v₁, t₁, before, starts, inside⟩ := Run.head inside
    have takes := run_including filename noted (i := Inclusion.opened p as) inside rfl
      (Part.nest_eventsOf ns 0)
    obtain ⟨n, x, w', q, r', gs, inserts, expands, closed, rfl⟩ := insert_of_replaces replaces noted v'
    have element := read_element ns p as o endName
    rw [List.foldl_append] at element
    have replaced : step k (.including filename noted ((Part.eventsOf ns).foldl Inclusion.read (Inclusion.opened p as)) v) t =
        .skip (.inserting filename noted n x (v'.filtered fs)) q := by
      simp only [step, stepIncluding, ends]
      rw [← inserts, ← element]
      have last : (([Event.endTag o endName]).foldl Inclusion.read
          ((Part.eventsOf ns).foldl Inclusion.read (Inclusion.opened p as))).depth = 0 := by rw [element]
      exact if_pos last
    refine Completes.after ?_ (ih (List.forall_mem_cons.1 whole).2)
    rw [← closed]
    exact (run_included_silent before).trans (.skip (step_included_include starts isInclude)
      (takes.trans (.skip replaced (run_inserting expands))))
  | cut => cases (List.forall_mem_cons.1 whole).1

/-! ## Passages of a run -/

/-- What is left of a run while an include element is being replaced. -/
def Inserting (k : Nat) (filename : Text) (noted : List Text) (n : Nat) (x u : Stream) (s : Store) (out : List Event)
    (w : Stream) (r : Store) : Prop :=
  ∃ gs y q ps rest, Completes k x s gs none y q ∧ Weaves k filename noted u (y.close q) ps rest w r ∧
    out = gs.map (Event.indent n) ++ rest

/-- What is left of a run while an include element is being read, at a depth: the element is closed and replaced, or the
stream ends in it. -/
def Including (k : Nat) (filename : Text) (noted : List Text) (i : Inclusion) (d : Nat) (u : Stream) (s : Store)
    (out : List Event) (w : Stream) (r : Store) : Prop :=
  (∃ inside o endName v t v' t', Run k u s inside v t ∧ step k v t = .yield (.endTag o endName) v' t' ∧
    inside.foldlM Event.nest d = some 0 ∧
    ∃ n x u' q, insert filename noted ((inside ++ [Event.endTag o endName]).foldl Inclusion.read i) v' t' =
      .skip (.inserting filename noted n x u') q ∧ Inserting k filename noted n x u' q out w r) ∨
  ∃ inside v t d', Completes k u s inside none v t ∧ inside.foldlM Event.nest d = some d'

/-- What is left of a run, in each of the three states of an include stream. -/
structure Continues (k : Nat) (filename : Text) (x : Stream) (s : Store) (out : List Event) (w : Stream) (r : Store) :
    Prop where
  included : ∀ noted u, x = .included filename noted u → ∃ ps, Weaves k filename noted u s ps out w r
  including : ∀ noted i d u, x = .including filename noted i u → i.depth = d + 1 →
    Including k filename noted i d u s out w r
  inserting : ∀ noted n y u, x = .inserting filename noted n y u → Inserting k filename noted n y u s out w r

/-- What is left after a step. -/
def Leaves (k : Nat) (filename : Text) (w : Stream) (r : Store) (out : List Event) : Advance → Prop
  | .yield e x q => ∃ es, out = e :: es ∧ Continues k filename x q es w r
  | .skip x q => Continues k filename x q out w r
  | .done x q => out = [] ∧ x = w ∧ q = r
  | .fail .. => False

/-- More events of the include element. -/
theorem Including.after {d' : Nat} (before : Run k u s es v t) (inside : es.foldlM Event.nest d = some d')
    (h : Including k filename noted (es.foldl Inclusion.read i) d' v t out w r) :
    Including k filename noted i d u s out w r := by
  have more {fs : List Event} {d'' : Nat} (rest : fs.foldlM Event.nest d' = some d'') :
      (es ++ fs).foldlM Event.nest d = some d'' := by
    rw [List.foldlM_append, inside]
    exact rest
  rcases h with ⟨fs, o, endName, v₁, t₁, v₂, t₂, run, ends, closed, inserts⟩ | ⟨fs, v₁, t₁, d'', last, isOpen⟩
  · refine .inl ⟨es ++ fs, o, endName, v₁, t₁, v₂, t₂, before.trans run, ends, more closed, ?_⟩
    rw [List.append_assoc, List.foldl_append]
    exact inserts
  · exact .inr ⟨es ++ fs, v₁, t₁, d'', last.after before, more isOpen⟩

/-- An include element that has been closed is a passage. -/
theorem weaves_of_including (first : step k u s = .yield (.startTag p name as) v t) (isInclude : name.same includeName = true)
    (h : Including k filename noted (Inclusion.opened p as) 0 v t out w r) : ∃ ps, Weaves k filename noted u s ps out w r := by
  rcases h with ⟨inside, o, endName, v₁, t₁, v₂, t₂, run, ends, closed, n, x, u', q, inserts, inserting⟩ |
    ⟨inside, v₁, t₁, d', last, isOpen⟩
  · obtain ⟨ns, rfl⟩ := Part.nested_iff_parts.1 closed
    rw [read_element] at inserts
    obtain ⟨gs, y, q', ps, rest, expands, weaves, rfl⟩ := inserting
    obtain ⟨fs, replaces, rfl⟩ := replaces_of_insert inserts expands
    exact ⟨_, .element (.yield first run) ends isInclude replaces weaves⟩
  · exact ⟨_, .cut (last.after (.single first)) isOpen⟩

/-- What comes of the first event inside of an include element. -/
theorem including_of_yield (first : step k u s = .yield e v t) (deep : i.depth = d + 1)
    (h : Leaves k filename w r out (stepIncluding filename noted i (.yield e v t))) :
    Including k filename noted i d u s out w r := by
  simp only [stepIncluding] at h
  cases nests : e.nest d with
  | some d' =>
    have deeper := depth_read deep nests
    rw [if_neg (by omega)] at h
    have inside : [e].foldlM Event.nest d = some d' := by
      rw [List.foldlM_cons, nests]
      rfl
    refine Including.after (.single first) inside ?_
    exact h.including _ _ d' _ rfl deeper
  | none =>
    -- the event closes the include element
    obtain ⟨o, endName, rfl, rfl⟩ : ∃ o endName, e = .endTag o endName ∧ d = 0 := by
      cases e with
      | endTag o endName =>
        simp only [Event.nest, ite_eq_left_iff, reduceCtorEq, imp_false, not_not] at nests
        exact ⟨o, endName, rfl, nests⟩
      | _ => cases nests
    have closed : (Inclusion.read i (.endTag o endName)).depth = 0 := by
      simp [Inclusion.read, deep]
    rw [if_pos closed] at h
    rcases insert_silent filename noted (Inclusion.read i (.endTag o endName)) v t with
      ⟨n, y, u', q, inserts⟩ | ⟨why, y, q, fails⟩
    · rw [inserts] at h
      exact .inl ⟨[], o, endName, u, s, v, t, .refl u s, first, rfl, n, y, u', q, inserts, h.inserting _ _ _ _ rfl⟩
    · rw [fails] at h
      exact h.elim

theorem including_of_leaves (deep : i.depth = d + 1)
    (h : Leaves k filename w r out (step k (.including filename noted i u) s)) :
    Including k filename noted i d u s out w r := by
  simp only [step] at h
  cases inner : step k u s with
  | yield e v t =>
    rw [inner] at h
    exact including_of_yield inner deep h
  | skip v t =>
    rw [inner] at h
    refine Including.after (.silent inner) rfl ?_
    exact h.including _ _ d _ rfl deep
  | done v t => exact .inr ⟨[], v, t, d, ⟨u, s, .refl u s, inner⟩, rfl⟩
  | fail =>
    rw [inner] at h
    exact h.elim

theorem inserting_of_leaves (h : Leaves k filename w r out (step k (.inserting filename noted n x u) s)) :
    Inserting k filename noted n x u s out w r := by
  simp only [step] at h
  cases inner : step k x s with
  | yield e y t =>
    have next : stepInserting filename noted n u (.yield e y t) = .yield (e.indent n) (.inserting filename noted n y u) t := by
      cases e <;> rfl
    rw [inner, next] at h
    obtain ⟨es, rfl, continues⟩ := h
    obtain ⟨gs, w', q, ps, others, expands, weaves, rfl⟩ := continues.inserting _ _ _ _ rfl
    exact ⟨e :: gs, w', q, ps, others, expands.after (.single inner), weaves, rfl⟩
  | skip y t =>
    rw [inner] at h
    obtain ⟨gs, w', q, ps, others, expands, weaves, rfl⟩ := h.inserting _ _ _ _ rfl
    exact ⟨gs, w', q, ps, others, expands.after (.silent inner), weaves, rfl⟩
  | done y t =>
    rw [inner] at h
    obtain ⟨ps, weaves⟩ := h.included _ _ rfl
    exact ⟨[], y, t, ps, _, ⟨x, s, .refl x s, inner⟩, weaves, rfl⟩
  | fail =>
    rw [inner] at h
    exact h.elim

theorem weaves_of_leaves (h : Leaves k filename w r out (step k (.included filename noted u) s)) :
    ∃ ps, Weaves k filename noted u s ps out w r := by
  cases inner : step k u s with
  | yield e v t =>
    cases other : e.isInclude with
    | true =>
      obtain ⟨p, name, as, rfl⟩ := Event.eq_startTag (e := e) (by cases e <;> first | rfl | cases other)
      rw [step_included_include inner other] at h
      exact weaves_of_including inner other (h.including _ _ 0 _ rfl rfl)
    | false =>
      rw [step_included_event inner other] at h
      dsimp only at h
      split at h
      · rename_i isNoted
        obtain ⟨ps, weaves⟩ := h.included _ _ rfl
        have passage := Weaves.event (.single inner) other weaves
        rw [if_pos isNoted] at passage
        exact ⟨_, passage⟩
      · rename_i isNoted
        obtain ⟨es, rfl, continues⟩ := h
        obtain ⟨ps, weaves⟩ := continues.included _ _ rfl
        have passage := Weaves.event (.single inner) other weaves
        rw [if_neg isNoted] at passage
        exact ⟨_, passage⟩
  | skip v t =>
    simp only [step, stepIncluded, inner] at h
    obtain ⟨ps, weaves⟩ := h.included _ _ rfl
    exact ⟨ps, weaves.after (.silent inner)⟩
  | done v t =>
    simp only [step, stepIncluded, inner] at h
    obtain ⟨rfl, rfl, rfl⟩ := h
    exact ⟨[], .ended ⟨u, s, .refl u s, inner⟩⟩
  | fail =>
    simp only [step, stepIncluded, inner] at h
    exact h.elim

theorem continues_of_leaves (h : Leaves k filename w r out (step k x s)) : Continues k filename x s out w r where
  included := by
    rintro noted u rfl
    exact weaves_of_leaves h
  including := by
    rintro noted i d u rfl deep
    exact including_of_leaves deep h
  inserting := by
    rintro noted n y u rfl
    exact inserting_of_leaves h

theorem continues_of_run (run : Run k x s out v t) (last : step k v t = .done w r) : Continues k filename x s out w r := by
  induction run with
  | refl x s => exact continues_of_leaves (by rw [last]; exact ⟨rfl, rfl, rfl⟩)
  | skip first _ ih => exact continues_of_leaves (by rw [first]; exact ih last)
  | yield first _ ih => exact continues_of_leaves (by rw [first]; exact ⟨_, rfl, ih last⟩)

/-- **Every run of an include stream that comes to its end is woven of passages.** -/
theorem weaves_of_completes (h : Completes k (.included filename noted u) s out none w r) :
    ∃ ps, Weaves k filename noted u s ps out w r := by
  obtain ⟨v, t, run, last⟩ := h
  exact (continues_of_run run last).included noted u rfl

end Stream

end Stencil
