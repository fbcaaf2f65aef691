import Stencil.Proofs.Library.Plain
import Stencil.Proofs.Template.Outline

/-!
# Dropped declarations

Compiling drops the declarations of the directive namespace, an include stream those of the include namespace. Both find
the ends of what they drop by prefixes, and they find the right ones if and only if such a prefix is not declared for
another namespace inside of its declaration, or not declared again at all (`Template.declarations_dropped`).
-/

open Stencil.Stream

namespace Stencil

/-! ## Include streams -/

namespace Stream

variable {k : Nat} {filename : Text} {noted : List Text} {u w : Stream} {s r : Store} {ps : List Passage}
  {out : List Event} {brackets outer : List Bracket}

/-- If what takes the place of include elements pairs up, all that comes out is as what remains outside of them. -/
theorem encloseAll_written (inserted : ∀ n es fs, .element n es fs ∈ ps → Event.PairsUp es) (whole : ∀ p ∈ ps, p.isWhole = true)
    (noted : List Text) (brackets : List Bracket) :
    Event.encloseAll brackets (Passage.written noted ps) = Event.encloseAll brackets
      (Event.dropNoted List.insert Template.includeNamespace noted (ps.flatMap Passage.outside)) := by
  induction ps generalizing noted brackets with
  | nil => rfl
  | cons p ps ih =>
    have rest := ih (fun n es fs member => inserted n es fs (List.mem_cons_of_mem _ member)) (List.forall_mem_cons.1 whole).2
    cases p with
    | event e =>
      rw [Passage.written, List.flatMap_cons]
      change _ = Event.encloseAll brackets (Event.dropNoted _ _ noted (e :: ps.flatMap Passage.outside))
      rw [Event.dropNoted]
      split
      · exact rest _ brackets
      · rw [Event.encloseAll, List.foldlM_cons, Event.encloseAll, List.foldlM_cons]
        exact congrArg (Event.enclose brackets e).bind (funext (rest _))
    | element n es fs =>
      rw [Passage.written, List.flatMap_cons, Event.encloseAll, List.foldlM_append]
      change (Event.encloseAll brackets es).bind _ = _
      rw [(inserted n es fs List.mem_cons_self).encloseAll brackets]
      exact rest noted brackets
    | cut => cases (List.forall_mem_cons.1 whole).1

end Stream

/-! ## Both places -/

namespace Template

open Event

/-- **Declarations are dropped together with their ends**, as long as their prefixes are not declared again.

What is compiled keeps all tags and declarations of a document but for those of the directive namespace and the ends
that are taken for theirs. These are the right ones if and only if no declaration of that namespace is shadowed, and then
what remains pairs up again. The same holds for the include namespace and what an include stream reads outside of
include elements, if and only if no declaration of that namespace stands around another one of its prefix. -/
theorem declarations_dropped (t : Compile.Target) (es : List Event) (m : Template) (k : Nat) (filename : Text) (u : Stream)
    (s : Store) (out : List Event) (w : Stream) (r : Store) :
    ((∀ e ∈ es, e.isMarkup = true) → PairsUp es → Compile.template t es = .ok m →
      outlineAll m.events = outlineAll (dropNoted List.cons directiveNamespace [] es) ∧
      (InPairs List.cons directiveNamespace [] [] es ↔ anyWithin (shadows directiveNamespace) [] es = false) ∧
      (InPairs List.cons directiveNamespace [] [] es → PairsUp (outlineAll m.events))) ∧
    (Completes k (.included filename [] u) s out none w r →
      ∃ ps, Weaves k filename [] u s ps out w r ∧
        (PairsUp (ps.flatMap Passage.read) →
          let outside := ps.flatMap Passage.outside
          out = Passage.written [] ps ∧ PairsUp outside ∧
          (InPairs List.insert includeNamespace [] [] outside ↔ anyWithin (redeclares includeNamespace) [] outside = false) ∧
          (InPairs List.insert includeNamespace [] [] outside →
            (∀ n inserted fs, .element n inserted fs ∈ ps → PairsUp inserted) → PairsUp out))) := by
  refine ⟨fun markup pairsUp compiled => ?_, fun completes => ?_⟩
  · have outline := Compile.outline_template compiled
    refine ⟨outline, inPairs_cons_iff _ pairsUp, fun inPairs => ?_⟩
    have plain : ∀ p ds inside, .sub p ds inside ∉ dropNoted List.cons directiveNamespace [] es :=
      fun p ds inside member => nomatch markup _ (mem_of_mem_dropNoted member)
    rw [outline]
    exact (encloseAll_outline plain []).trans (pairsUp_dropNoted inPairs pairsUp)
  · obtain ⟨ps, weaves⟩ := weaves_of_completes completes
    refine ⟨ps, weaves, fun pairsUp => ?_⟩
    have whole := weaves.whole pairsUp.nested
    have outside : PairsUp (ps.flatMap Passage.outside) := weaves.outside pairsUp whole
    refine ⟨weaves.written whole, outside, inPairs_insert_iff _ outside, fun inPairs inserted => ?_⟩
    rw [weaves.written whole]
    exact (encloseAll_written inserted whole [] []).trans (pairsUp_dropNoted inPairs outside)

/-- A prefix that is declared twice for directives, and the include namespace under two prefixes. -/
theorem declarations_dropped_nested :
    let name (base : Text) : QName := .plain base
    let twice (pre uri pre' uri' : Text) : List Event :=
      [.startNamespace ⟨1, 0⟩ pre uri, .startTag ⟨1, 0⟩ (name "a") [], .startNamespace ⟨1, 9⟩ pre' uri',
        .startTag ⟨1, 9⟩ (name "b") [], .endTag ⟨2, 0⟩ (name "b"), .endNamespace ⟨2, 0⟩ pre',
        .endTag ⟨3, 0⟩ (name "a"), .endNamespace ⟨3, 0⟩ pre]
    let document := twice "py" directiveNamespace "py" directiveNamespace
    let read := twice "x" includeNamespace "y" includeNamespace
    let s := Store.ofContext (.ofBase []) (.empty [])
    let out : List Event :=
      [.startTag ⟨1, 0⟩ (name "a") [], .startTag ⟨1, 9⟩ (name "b") [], .endTag ⟨2, 0⟩ (name "b"), .endTag ⟨3, 0⟩ (name "a")]
    (∃ m, Compile.template ⟨0, "t", .empty⟩ document = .ok m ∧ PairsUp (outlineAll m.events)) ∧
      ∃ ps, Weaves 12 "t" [] (.ofEvents read) s ps out (.included "t" [] .empty) s ∧ ps.flatMap Passage.read = read ∧
        PairsUp out := by
  intro name twice document read s out
  have compiled : ∃ m, Compile.template ⟨0, "t", .empty⟩ document = .ok m := ⟨_, rfl⟩
  obtain ⟨m, compiled⟩ := compiled
  have ends : ((Stream.included "t" [] (.ofEvents read)).collect 12 none s).stop? = none := rfl
  have enough : ((Stream.included "t" [] (.ofEvents read)).collect 12 none s).stop? ≠ some .outOfFuel := by simp [ends]
  have completes := completes_of_collect enough
  obtain ⟨compiles, streams⟩ := declarations_dropped ⟨0, "t", .empty⟩ document m 12 "t" (.ofEvents read) s out
    (.included "t" [] .empty) s
  obtain ⟨-, right, pairsUp⟩ := compiles (by decide) (by decide) compiled
  refine ⟨⟨m, compiled, pairsUp (right.2 (by decide))⟩, ?_⟩
  obtain ⟨ps, weaves, drops⟩ := streams completes
  have plain : s.Plain := ⟨fun _ _ held => (by cases held), nofun⟩
  have reads := weaves.reads (weaves.unfiltered plain)
  obtain ⟨-, -, right, pairsUp⟩ := drops (by rw [reads]; decide)
  have once : (prefixesOf (ps.flatMap Passage.read)).Nodup := by rw [reads]; decide
  refine ⟨ps, weaves, reads, pairsUp (right.2 (Passage.redeclares_outside once _)) fun n inserted fs member => ?_⟩
  -- there is no include element
  obtain ⟨e, inside, isInclude⟩ := weaves.includes n inserted fs member
  have others : ∀ e ∈ read, e.isInclude = false := by decide
  have found : e ∈ ps.flatMap Passage.read := List.mem_flatMap.2 ⟨_, member, inside⟩
  cases isInclude.symm.trans (others e (reads ▸ found))

/-- A prefix that is declared for directives, and for something else inside of that: the inner end is dropped in place of
the outer one. A prefix that is declared twice for include elements keeps an end of its own. -/
theorem declarations_mispaired :
    let name (base : Text) : QName := .plain base
    let twice (pre uri uri' : Text) : List Event :=
      [.startNamespace ⟨1, 0⟩ pre uri, .startTag ⟨1, 0⟩ (name "a") [], .startNamespace ⟨1, 9⟩ pre uri',
        .startTag ⟨1, 9⟩ (name "b") [], .endTag ⟨2, 0⟩ (name "b"), .endNamespace ⟨2, 0⟩ pre,
        .endTag ⟨3, 0⟩ (name "a"), .endNamespace ⟨3, 0⟩ pre]
    let document := twice "p" directiveNamespace "urn:p"
    let read := twice "x" includeNamespace includeNamespace
    let s := Store.ofContext (.ofBase []) (.empty [])
    PairsUp document ∧ ¬ InPairs List.cons directiveNamespace [] [] document ∧
      (Compile.template ⟨0, "t", .empty⟩ document).map (·.events) = .ok
        [.startTag ⟨1, 0⟩ (name "a") [], .startNamespace ⟨1, 9⟩ "p" "urn:p", .startTag ⟨1, 9⟩ (name "b") [],
          .endTag ⟨2, 0⟩ (name "b"), .endTag ⟨3, 0⟩ (name "a"), .endNamespace ⟨3, 0⟩ "p"] ∧
      PairsUp read ∧ ((Stream.included "t" [] (.ofEvents read)).collect 20 none s).events =
        [.startTag ⟨1, 0⟩ (name "a") [], .startTag ⟨1, 9⟩ (name "b") [], .endTag ⟨2, 0⟩ (name "b"),
          .endTag ⟨3, 0⟩ (name "a"), .endNamespace ⟨3, 0⟩ "x"] := by
  intro name twice document read s
  refine ⟨by decide, ?_, rfl, by decide, rfl⟩
  rw [inPairs_cons_iff _ (by decide)]
  decide

end Template

end Stencil
