import Stencil.Proofs.Stream.Splicing
import Stencil.Proofs.Template.History
import Stencil.Proofs.Template.Leaves

/-!
# Finite expansions

A template without `def` directives and include elements, rendered against a context without functions of templates,
in which every expression comes to a value or fails, has a finite expansion exactly if the number of streams that wait in
it is bounded (`Template.expansion_ends_iff`). A match template whose body contains what it replaces goes on for ever.
-/

namespace Stencil

/-! ## Compiling local documents -/

namespace Compile

/-- The event is no start tag of an include element or with a `def` directive. -/
def LocalTag : Event → Prop
  | .startTag _ name as => name.same Stream.includeName = false ∧
      ∀ a ∈ as, isDirective a = true → a.name.base ≠ DirectiveName.define.spelling
  | _ => True

instance : DecidablePred LocalTag
  | .startTag .. => inferInstanceAs (Decidable (_ ∧ _))
  | .endTag .. | .text .. | .startNamespace .. | .endNamespace .. | .comment .. | .instruction .. | .doctype .. | .blank
  | .expression .. | .sub .. => .isTrue trivial

/-- A document without `def` directives and include elements. -/
structure LocalDocument (es : List Event) : Prop where
  readable : ∀ e ∈ es, e.Readable
  tags : ∀ e ∈ es, LocalTag e

theorem ReadsTo.selfContained {n : DirectiveName} {value : Text} {body : BodyId} {r : DirectiveReading}
    (h : ReadsTo value body n r) (other : n ≠ .define) : r.directive.SelfContained := by
  cases h with
  | define => exact absurd rfl other
  | _ => trivial

theorem selfContained_leaf {source e : Event} (readable : source.Readable) (tag : LocalTag source) (h : e ∈ leavesOf source) :
    e.SelfContained := by
  cases source with
  | startTag p name as =>
    rw [List.mem_singleton.1 h]
    exact tag.1
  | text p text =>
    obtain ⟨f, -, rfl⟩ := List.mem_map.1 h
    cases f <;> trivial
  | blank | expression | sub => cases readable.markup
  | _ =>
    rw [List.mem_singleton.1 h]
    trivial

/-- **A local document compiles to self-contained events**, and to filters that substitute elements. -/
theorem selfContained_of_template {t : Target} {es : List Event} {template : Template} (document : LocalDocument es)
    (compiled : Compile.template t es = .ok template) :
    Event.AllSelfContained template.events ∧ (∀ f ∈ template.filters, Substitutes f) ∧ template.postFilters = [.tidy] := by
  have makes : Makes t es Event.SelfContained Directive.SelfContained Substitutes := {
    leaf := fun source hs e he => selfContained_leaf (document.readable source hs) (document.tags source hs) he
    reading := by
      intro p name as member a ha directive index r read
      obtain ⟨n, spelling, -, named⟩ := readNamed_of_read read
      have reads := readsTo_of_readNamed named
      refine ⟨reads.selfContained ?_, reads.substitutes⟩
      rintro rfl
      exact (document.tags _ member).2 a ha directive spelling.symm
    element := fun _ ds es => ⟨Directive.allSelfContained_iff.2 ds, Event.allSelfContained_iff.2 es⟩ }
  obtain ⟨events, filters, -, last, -⟩ := makes.template compiled
  exact ⟨Event.allSelfContained_iff.2 events, filters, last⟩

end Compile

/-! ## Runs that come to an end -/

namespace Stream

variable {k n : Nat} {u v w : Stream} {s t r : Store} {es : List Event} {stop? : Option Stop}

/-- A step with a run after it. -/
theorem Run.cons (first : (step k u s).LeadsTo v t) (rest : Run k v t es w r) : ∃ fs, Run k u s fs w r := by
  rcases first with skips | ⟨e, yields⟩
  · exact ⟨es, .skip skips rest⟩
  · exact ⟨e :: es, .yield yields rest⟩

/-- A stream that ends if few streams wait, and in which few streams wait, comes to its end or fails. -/
theorem completes_of_ends (h : Ends k n u s) (stream : u.SelfContained) (contained : s.SelfContained)
    (few : ∀ es v r, Run k u s es v r → v.waiting ≤ n) : ∃ es stop? w r, Completes k u s es stop? w r := by
  induction h with
  | @intro u s next ih =>
    have goes {v : Stream} {t : Store} (first : (step k u s).LeadsTo v t) : ∃ es stop? w r, Completes k u s es stop? w r := by
      have kept := (step_selfContained k stream contained).both
      rw [first.stream, first.store] at kept
      have after {es : List Event} {w : Stream} {r : Store} (rest : Run k v t es w r) : w.waiting ≤ n := by
        obtain ⟨fs, run⟩ := Run.cons first rest
        exact few fs w r run
      obtain ⟨es, stop?, w, r, x, q, rest, last⟩ := ih s v t (.refl s) contained first (after (.refl v t)) kept.1 kept.2
        fun _ _ _ => after
      obtain ⟨fs, run⟩ := Run.cons first rest
      exact ⟨fs, stop?, w, r, x, q, run, last⟩
    cases first : step k u s with
    | yield e v t => exact goes (.inr ⟨e, first⟩)
    | skip v t => exact goes (.inl first)
    | done v t => exact ⟨[], none, v, t, u, s, .refl u s, first⟩
    | fail why v t => exact ⟨[], some why, v, t, u, s, .refl u s, first⟩

/-- A run that comes to its end or fails goes through finitely many states. -/
theorem Completes.bounded (h : Completes k u s es stop? w r) (enough : stop? ≠ some .outOfFuel) :
    ∃ d, ∀ es v t, Run k u s es v t → v.waiting ≤ d ∧ ¬ (step k v t).Lacks := by
  obtain ⟨x, q, run, last⟩ := h
  -- the state itself, and those after its only step
  have states {u v : Stream} {s t : Store} {d : Nat} (first : (step k u s).LeadsTo v t)
      (rest : ∀ es x q, Run k v t es x q → x.waiting ≤ d ∧ ¬ (step k x q).Lacks) :
      ∀ es x q, Run k u s es x q → x.waiting ≤ max u.waiting d ∧ ¬ (step k x q).Lacks := by
    intro es x q run
    cases run with
    | refl =>
      refine ⟨Nat.le_max_left .., ?_⟩
      rintro ⟨_, _, lacks⟩
      rw [lacks] at first
      exact Advance.not_leadsTo_fail first
    | skip next after | yield next after =>
      have stream := first.stream
      have store := first.store
      rw [next] at stream store
      cases stream
      cases store
      obtain ⟨few, goes⟩ := rest _ _ _ after
      exact ⟨few.trans (Nat.le_max_right ..), goes⟩
  induction run with
  | refl u s =>
    refine ⟨u.waiting, fun es x q run => ?_⟩
    have stays : ∀ v t, ¬ (step k u s).LeadsTo v t := by
      intro v t
      rw [last]
      cases stop? with
      | none => exact Advance.not_leadsTo_done
      | some why => exact Advance.not_leadsTo_fail
    cases run with
    | refl => exact ⟨Nat.le_refl _, fun lacks => enough (final_lacks (last ▸ lacks))⟩
    | skip next => exact absurd (.inl next) (stays _ _)
    | yield next => exact absurd (.inr ⟨_, next⟩) (stays _ _)
  | skip first _ ih =>
    obtain ⟨d, few⟩ := ih last
    exact ⟨_, states (.inl first) few⟩
  | yield first _ ih =>
    obtain ⟨d, few⟩ := ih last
    exact ⟨_, states (.inr ⟨_, first⟩) few⟩

end Stream

/-! ## Finite expansions -/

namespace Template

open Compile

variable {t : Template} {target : Target} {es : List Event} {s : Store}

/-- The filters that the compiler, and perhaps a library, have given the template. -/
structure Furnished (t : Template) : Prop where
  first : t.preFilters = [.evaluate] ∨ ∃ path, t.preFilters = [.evaluate, .inclusion path]
  substitutes : ∀ f ∈ t.filters, Substitutes f
  last : t.postFilters = [.tidy]

/-- **An expansion comes to an end if the number of streams that wait in it is bounded.** -/
theorem Furnished.ends_expansion (h : t.Furnished) (events : Event.AllSelfContained t.events) (k n : Nat) (s : Store) :
    Stream.Ends k n t.expansion s := by
  have others : ∀ f ∈ t.filters, f.Passes := by
    intro f hf
    obtain ⟨path, body, rfl⟩ := h.substitutes f hf
    trivial
  obtain ⟨fs, filters, passes⟩ : ∃ fs, t.expansionFilters = .evaluate :: fs ∧ ∀ f ∈ fs, f.Passes := by
    unfold expansionFilters
    rcases h.first with first | ⟨path, first⟩
    · exact ⟨t.filters, by rw [first]; rfl, others⟩
    · exact ⟨.inclusion path :: t.filters, by rw [first]; rfl, List.forall_mem_cons.2 ⟨trivial, others⟩⟩
  have source : Stream.Ends k n t.source s := by
    unfold source
    rw [filters]
    exact (Stream.ends_ofEvents t.events s).filtered passes events
  have contained : t.source.SelfContained := Stream.selfContained_filtered.2 events
  have expanded := (Stream.splices_expanded filters passes).ends contained source .zero
  unfold expansion
  rw [h.last]
  exact expanded.tidied none none

/-- In the expansion of the template, every expression comes to a value or fails. -/
def Computes (t : Template) (s : Store) : Prop :=
  ∀ es u r, Stream.Run Function.enough t.expansion s es u r → ¬ (Stream.step Function.enough u r).Lacks

/-- An expansion that comes to its end or fails has computed all its expressions. -/
theorem computes_of_ends (events : Event.AllSelfContained t.events) (contained : s.SelfContained)
    (ends : ∃ n, ∀ fuel, n ≤ fuel → (t.expansion.collect fuel none s).stop? ≠ some .outOfFuel) : t.Computes s := by
  obtain ⟨n, ends⟩ := ends
  have le := Nat.le_max_right n Function.enough
  have completes := Stream.completes_of_collect (ends n (Nat.le_refl n))
  have larger := completes.of_le (Nat.le_max_left n Function.enough) (ends n (Nat.le_refl n))
  obtain ⟨d, goes⟩ := larger.bounded (ends n (Nat.le_refl n))
  intro es u r run
  obtain ⟨kept, store⟩ := run.selfContained (selfContained_expansion events) contained
  rw [← Stream.step_enough le kept store]
  exact (goes es u r (run.of_le le)).2

/-- **What makes expansions finite.** Take a template that has been compiled from a document without `def` directives
and include elements, by itself or by a library, and a store without functions that templates have defined, in which
every expression of the template comes to a value or fails. Pulling all events of the expansion comes to its end or
fails, exactly if the number of streams that wait in it is bounded. -/
theorem expansion_ends_iff (document : LocalDocument es)
    (compiled : Compile.template target es = .ok { t with preFilters := [.evaluate] })
    (first : t.preFilters = [.evaluate] ∨ ∃ path, t.preFilters = [.evaluate, .inclusion path]) (contained : s.SelfContained)
    (computes : t.Computes s) :
    (∃ n, ∀ fuel, n ≤ fuel → (t.expansion.collect fuel none s).stop? ≠ some .outOfFuel) ↔
      ∃ d, ∀ es u r, Stream.Run Function.enough t.expansion s es u r → u.waiting ≤ d := by
  obtain ⟨events, substitutes, last⟩ := selfContained_of_template document compiled
  have stream : t.expansion.SelfContained := selfContained_expansion events
  constructor
  · rintro ⟨n, ends⟩
    have completes := Stream.completes_of_collect (ends n (Nat.le_refl n))
    have larger := completes.of_le (Nat.le_max_left n Function.enough) (ends n (Nat.le_refl n))
    obtain ⟨d, few⟩ := larger.bounded (ends n (Nat.le_refl n))
    refine ⟨d, fun es u r run => ?_⟩
    exact (few es u r (run.of_le (Nat.le_max_right n Function.enough))).1
  · rintro ⟨d, few⟩
    have furnished : t.Furnished := ⟨first, substitutes, last⟩
    obtain ⟨es, stop?, w, r, x, q, run, final⟩ := Stream.completes_of_ends (furnished.ends_expansion events _ d s) stream
      contained few
    have enough : stop? ≠ some .outOfFuel := by
      rintro rfl
      exact computes es x q run ⟨w, r, final⟩
    obtain ⟨n, collects⟩ := Stream.collect_of_completes enough ⟨x, q, run, final⟩
    exact ⟨n, fun fuel large => by rwa [collects fuel large]⟩

/-- A document without `def` directives and include elements can be told by its tags. -/
theorem local_of_document (target : Target) (document : List Callback)
    (compiled : (Compilation.ofDocument target document).result = .ok t)
    (tags : ∀ es ∈ (Document.read document).toOption, ∀ e ∈ es, LocalTag e) :
    ∃ es, Document.read document = .ok es ∧ Compile.template target es = .ok t ∧ LocalDocument es := by
  obtain ⟨es, read, compiled⟩ := events_of_document compiled
  exact ⟨es, read, compiled, Document.readable_of_read read, tags es (by rw [read]; rfl)⟩

theorem selfContained_firstStore {v : Frame} (values : Entries.From .selfContained v) :
    (firstStore.against v).SelfContained where
  context := by
    intro f hf
    rw [List.mem_singleton.1 hf]
    exact values
  bodies := by
    intro b es captured
    cases captured
  replay := fun _ => trivial

/-- A match template that selects from what it replaces by a path of the context, and a loop of elements to be replaced. -/
def selectingDocument : List Callback :=
  [startOf "a" [], startOf "m" [("match", "e")], characters "$\x7bselect(p)\x7d", endOf "m",
    startOf "e" [("for", "x in [1, 2]")], startOf "c" [], characters "$x", endOf "c", endOf "e", endOf "a"]

def selecting : Template :=
  ⟨0, "t.xml", [.startTag ⟨1, 0⟩ (.plain "a") [],
    .sub ⟨1, 0⟩ [.capture ⟨0, 3⟩]
      [.startTag ⟨1, 0⟩ (.plain "m") [], .expression ⟨1, 0⟩ ⟨"select(p)"⟩, .endTag ⟨1, 0⟩ (.plain "m")],
    .sub ⟨1, 0⟩ [.loop ["x"] ⟨"[1, 2]"⟩]
      [.startTag ⟨1, 0⟩ (.plain "e") [], .startTag ⟨1, 0⟩ (.plain "c") [], .expression ⟨1, 0⟩ ⟨"x"⟩, .endTag ⟨1, 0⟩ (.plain "c"),
        .endTag ⟨1, 0⟩ (.plain "e")],
    .endTag ⟨1, 0⟩ (.plain "a")], [.evaluate],
    [.substitute ⟨"e", [⟨false, [⟨.child, .element "e", none⟩]⟩]⟩ ⟨0, 3⟩], [.tidy]⟩

theorem expansion_ends_iff_selecting :
    let s := firstStore.against [("p", .text "*")]
    ∃ es, Document.read selectingDocument = .ok es ∧ LocalDocument es ∧ Compile.template ⟨0, "t.xml", .empty⟩ es = .ok selecting ∧
      s.SelfContained ∧ (selecting.render 100 s).1.toOption = some "<a><m><c>1</c></m><m><c>2</c></m></a>" ∧
      selecting.Computes s ∧ ∃ d, ∀ es u r, Stream.Run Function.enough selecting.expansion s es u r → u.waiting ≤ d := by
  intro s
  obtain ⟨es, read, compiled, document⟩ := local_of_document ⟨0, "t.xml", .empty⟩ selectingDocument rfl (by decide +kernel)
  have contained : s.SelfContained := selfContained_firstStore (.cons trivial .nil)
  have done : (selecting.expansion.collect 100 none s).stop?.isNone = true := by decide +kernel
  have ends : (selecting.expansion.collect 100 none s).stop? ≠ some .outOfFuel := by
    rw [Option.isNone_iff_eq_none.1 done]
    simp
  have computes : selecting.Computes s :=
    computes_of_ends (selfContained_of_template document compiled).1 contained (Stream.stays_enough ends)
  exact ⟨es, read, document, compiled, contained, by decide +kernel, computes,
    (expansion_ends_iff document compiled (.inl rfl) contained computes).1 (Stream.stays_enough ends)⟩

/-! ## Expansions without an end -/

/-- A match template whose body contains an element that it replaces. -/
def echoDocument : List Callback :=
  [startOf "a" [], startOf "b" [("match", "e")], startOf "e" [], endOf "e", endOf "b", startOf "e" [], endOf "e", endOf "a"]

/-- The element that is matched. -/
def echoElement : List Event := [.startTag ⟨1, 0⟩ (.plain "e") [], .endTag ⟨1, 0⟩ (.plain "e")]

/-- What replaces it. -/
def echoBody : List Event := .startTag ⟨1, 0⟩ (.plain "b") [] :: (echoElement ++ [.endTag ⟨1, 0⟩ (.plain "b")])

def echoPath : Path := ⟨"e", [⟨false, [⟨.child, .element "e", none⟩]⟩]⟩

def echo : Template :=
  ⟨0, "t.xml", .startTag ⟨1, 0⟩ (.plain "a") [] :: .sub ⟨1, 0⟩ [.capture ⟨0, 3⟩] echoBody ::
    (echoElement ++ [.endTag ⟨1, 0⟩ (.plain "a")]), [.evaluate], [.substitute echoPath ⟨0, 3⟩], [.tidy]⟩

/-- An element is about to be replaced, in front of the rest of the stream. -/
def echoing (rest : Stream) : Stream :=
  .tidied none none (.expanded echo ⟨1, 0⟩
    (.append ((Stream.directed [.expand ⟨0, 3⟩ echoElement] [] (.ofEvents [])).filtered echo.expansionFilters) rest))

/-- The replacement yields a tag, and the element in it is to be replaced again. -/
theorem echo_again {k : Nat} (body : s.body ⟨0, 3⟩ = echoBody) (u : Stream) :
    ∃ es v r, Stream.Run k (echoing u) s es (echoing (.append v u)) r ∧ r.body ⟨0, 3⟩ = echoBody := by
  have first : Stream.step k (echoing u) s = .skip (.tidied none none (.expanded echo ⟨1, 0⟩
      (.append ((Stream.directed [] [] (.replay (.waiting [("select", .function ⟨s.nextFunction, .select echoElement⟩)]
        (s.body ⟨0, 3⟩)))).filtered echo.expansionFilters) u))) { s with nextFunction := s.nextFunction + 1 } := rfl
  rw [body] at first
  exact ⟨_, _, _, .skip first (.skip rfl (.yield rfl (.skip rfl (.skip rfl (.refl _ _))))), body⟩

/-- The match template is captured, and the element is collected. -/
theorem echo_begins (k : Nat) :
    ∃ es u r, Stream.Run k echo.expansion (firstStore.against []) es (echoing u) r ∧ r.body ⟨0, 3⟩ = echoBody := by
  have captured : Stream.Run k echo.expansion (firstStore.against []) [.startTag ⟨1, 0⟩ (.plain "a") []]
      (.tidied none none (.expanded echo ⟨1, 0⟩ (.substituted echoPath ⟨0, 3⟩ [.startTag ⟨1, 0⟩ (.plain "a") []]
        (.evaluated (.ofEvents (echoElement ++ [.endTag ⟨1, 0⟩ (.plain "a")]))))))
      { firstStore.against [] with bodies := [(⟨0, 3⟩, echoBody)] } :=
    .yield rfl (.skip rfl (.skip rfl (.skip rfl (.skip rfl (.skip rfl (.skip rfl (.skip rfl (.skip rfl (.refl _ _)))))))))
  have collected (s : Store) : Stream.Run k
      (.tidied none none (.expanded echo ⟨1, 0⟩ (.substituted echoPath ⟨0, 3⟩ [.startTag ⟨1, 0⟩ (.plain "a") []]
        (.evaluated (.ofEvents (echoElement ++ [.endTag ⟨1, 0⟩ (.plain "a")])))))) s []
      (echoing (.substituted echoPath ⟨0, 3⟩ [.startTag ⟨1, 0⟩ (.plain "a") []]
        (.evaluated (.ofEvents [.endTag ⟨1, 0⟩ (.plain "a")])))) s :=
    .skip rfl (.skip rfl (.refl _ _))
  exact ⟨_, _, _, captured.trans (collected _), rfl⟩

/-- Ever more streams wait. -/
theorem echo_waiting (k n : Nat) :
    ∃ es u r, Stream.Run k echo.expansion (firstStore.against []) es (echoing u) r ∧ r.body ⟨0, 3⟩ = echoBody ∧
      n ≤ u.waiting := by
  induction n with
  | zero =>
    obtain ⟨es, u, r, begins, body⟩ := echo_begins k
    exact ⟨es, u, r, begins, body, Nat.zero_le _⟩
  | succ n ih =>
    obtain ⟨es, u, r, before, body, more⟩ := ih
    obtain ⟨fs, v, r', round, body'⟩ := echo_again body u
    refine ⟨_, _, r', before.trans round, body', ?_⟩
    simp only [Stream.waiting]
    omega

/-- The expansion of the echo goes on for ever. -/
theorem echo_endless :
    ∃ es, Document.read echoDocument = .ok es ∧ LocalDocument es ∧ Compile.template ⟨0, "t.xml", .empty⟩ es = .ok echo ∧
      ∀ fuel, (echo.expansion.collect fuel none (firstStore.against [])).stop? = some .outOfFuel := by
  obtain ⟨es, read, compiled, document⟩ := local_of_document ⟨0, "t.xml", .empty⟩ echoDocument (t := echo) rfl
    (by decide +kernel)
  refine ⟨es, read, document, compiled, fun fuel => ?_⟩
  by_contra ends
  obtain ⟨d, few⟩ := (Stream.completes_of_collect ends).bounded ends
  obtain ⟨es, u, r, run, -, more⟩ := echo_waiting fuel (d + 1)
  have bound := (few _ _ _ run).1
  simp only [echoing, Stream.waiting] at bound
  omega

end Template

end Stencil
