import Stencil.Proofs.Stream.Shut

/-!
# Replacing include elements

Where no file has match templates, an include stream replaces each include element by what the template it names
expands to, or by the content of its fallbacks, and goes on with what comes behind the element. No start tag of an
include element comes out, unless a fallback has one (`Stream.includes_replaced`): the content of a fallback is not read
again, and so its include elements stay (`Stream.fallback_unresolved`).
-/

open Stencil.Stream

namespace Stencil

namespace Stream

variable {k : Nat} {u : Stream} {s : Store} {es : List Event}

/-! ## All of a run -/

/-- The stream comes to its end or fails within a number of steps, and passes a test at each of them. -/
def always (test : Stream → Bool) (k : Nat) : Nat → Stream → Store → Bool
  | 0, _, _ => false
  | n + 1, u, s =>
    test u && match step k u s with
      | .yield _ v t | .skip v t => always test k n v t
      | _ => true

theorem Run.always {test : Stream → Bool} {n : Nat} {v : Stream} {t : Store} (run : Run k u s es v t)
    (h : Stream.always test k n u s = true) : test v = true := by
  induction run generalizing n with
  | refl =>
    cases n with
    | zero => cases h
    | succ n => exact (Bool.and_eq_true_iff.1 h).1
  | skip first _ ih | yield first _ ih =>
    cases n with
    | zero => cases h
    | succ n =>
      have rest := (Bool.and_eq_true_iff.1 h).2
      rw [first] at rest
      exact ih rest

/-! ## Replacing -/

open Event in
/-- **Include elements are replaced**, as long as the fallbacks that are used hold no others.

Take any stream and files without match templates. If the include stream comes to its end, then what it has read falls
into passages: include elements, with what the templates they name expand to or with the content of their fallbacks,
and other events. What comes out is made of them in order, and all that is left out are the declarations of the include
namespace, if their prefixes are not declared again. If all elements can be replaced, the include stream does come to its
end. No start tag of an include element comes out of any run that puts none in place with a fallback. -/
theorem includes_replaced (plain : s.Plain) (k : Nat) (filename : Text) (u : Stream) :
    (∀ out w r, Completes k (.included filename [] u) s out none w r →
      ∃ ps, Weaves k filename [] u s ps out w r ∧
        (∀ n inserted fs, .element n inserted fs ∈ ps → fs = []) ∧
        (∀ es, u = .ofEvents es → ps.flatMap Passage.read = es) ∧
        (PairsUp (ps.flatMap Passage.read) →
          anyWithin (redeclares Template.includeNamespace) [] (ps.flatMap Passage.outside) = false →
            out = Passage.replaced [] ps)) ∧
    (∀ ps out w r, Weaves k filename [] u s ps out w r → Nested (ps.flatMap Passage.read) →
      Completes k (.included filename [] u) s out none w r) ∧
    ((∀ es v t, Run k (.included filename [] u) s es v t → ∀ e ∈ v.fallback, e.isInclude = false) →
      ∀ es v t, Run k (.included filename [] u) s es v t → ∀ e ∈ es, e.isInclude = false) := by
  refine ⟨fun out w r completes => ?_, fun ps out w r weaves nested => completes_of_weaves weaves (weaves.whole nested),
    fun quiet es v t run => run_shut run trivial plain quiet⟩
  obtain ⟨ps, weaves⟩ := weaves_of_completes completes
  have unfiltered := weaves.unfiltered plain
  refine ⟨ps, weaves, unfiltered, ?_, fun pairsUp none => ?_⟩
  · rintro es rfl
    exact weaves.reads unfiltered
  · have whole := weaves.whole pairsUp.nested
    have outside : PairsUp (ps.flatMap Passage.outside) := weaves.outside pairsUp whole
    rw [weaves.written whole]
    exact Passage.written_eq_replaced ((inPairs_insert_iff _ outside).2 none) outside

end Stream

/-! ## One file -/

namespace Template

/-- A paragraph of two lines. -/
def partDocument : List Callback :=
  [.startElement ⟨1, 3⟩ ⟨"p", none, none⟩ [] [], .characters ⟨2, 1⟩ "a\nb", .endElement ⟨2, 5⟩ ⟨"p", none, none⟩]

def partFiles : FileTree := (FileTree.empty ["W"]).add "/W/part.xml" (.document partDocument) ⟨0, 0⟩

/-- A store with one file, of which nothing has been loaded. -/
def partStore : Store :=
  { Store.ofContext (.ofBase []) (partFiles.system 0) with
    library? := some (.ofSearchPath ["/W"] true) }

theorem plain_partStore : partStore.Plain := by
  refine Store.plain_of_documents (t := partFiles) (fun _ _ held => held) (by decide +kernel) ?_
  rintro _ ⟨⟩
  rfl

/-- An include element that names a file, at a column. -/
def includeElement (column : UInt32) (href : Text) (content : List Event) : List Event :=
  .startTag ⟨2, column⟩ includeName [⟨.plain "href", [.literal href]⟩] :: (content ++ [.endTag ⟨2, column⟩ includeName])

/-- A fallback. -/
def fallbackElement (content : List Event) : List Event :=
  .startTag ⟨2, 0⟩ fallbackName [] :: (content ++ [.endTag ⟨2, 0⟩ fallbackName])

/-- What an include stream reads: a declaration of the include namespace around an element with some content. -/
def declaring (content : List Event) : List Event :=
  .startNamespace ⟨1, 0⟩ "xi" includeNamespace :: .startTag ⟨1, 0⟩ (.plain "a") [] ::
    (content ++ [.endTag ⟨3, 0⟩ (.plain "a"), .endNamespace ⟨3, 0⟩ "xi"])

end Template

open Template

namespace Stream

open Event in
/-- A template that is there, two columns to the right, and the fallback of one that is missing. -/
theorem includes_replaced_found :
    let es := declaring (includeElement 2 "part.xml" [] ++
      includeElement 4 "none.xml" (fallbackElement [.text ⟨2, 0⟩ "c\nd"]))
    let out : List Event := [.startTag ⟨1, 0⟩ (.plain "a") [], .startTag ⟨1, 0⟩ (.plain "p") [], .text ⟨1, 2⟩ "a\n  b",
      .endTag ⟨2, 0⟩ (.plain "p"), .text ⟨2, 0⟩ "c\nd", .endTag ⟨3, 0⟩ (.plain "a")]
    partStore.Plain ∧ PairsUp es ∧ (∀ e ∈ out, e.isInclude = false) ∧
      ∃ ps w r, Weaves 60 "/W/main.xml" [] (.ofEvents es) partStore ps out w r ∧ ps.flatMap Passage.read = es ∧
        out = Passage.replaced [] ps := by
  intro es out
  let u : Stream := .included "/W/main.xml" [] (.ofEvents es)
  have quiet : u.always (fun v => v.fallback.all (!·.isInclude)) 60 60 partStore = true := by decide +kernel
  have events : (u.collect 60 none partStore).events = out := rfl
  have ends : (u.collect 60 none partStore).stop? = none := rfl
  have enough : (u.collect 60 none partStore).stop? ≠ some .outOfFuel := by simp [ends]
  have completes := completes_of_collect enough
  rw [events, ends] at completes
  obtain ⟨replaced, -, shut⟩ := includes_replaced plain_partStore 60 "/W/main.xml" (.ofEvents es)
  obtain ⟨ps, weaves, -, reads, correct⟩ := replaced _ _ _ completes
  have reads := reads es rfl
  have pairsUp : PairsUp es := by decide +kernel
  have once : (prefixesOf (ps.flatMap Passage.read)).Nodup := by rw [reads]; decide
  refine ⟨plain_partStore, pairsUp, ?_, ps, _, _, weaves, reads, correct (reads ▸ pairsUp) (Passage.redeclares_outside once _)⟩
  obtain ⟨v, t, run, -⟩ := completes
  refine shut (fun fs x q run e member => ?_) out v t run
  have tested := run.always quiet
  simpa using List.all_eq_true.1 tested e member

/-- **An include element in a fallback stays**, although the template that it names is there. -/
theorem fallback_unresolved :
    let es := declaring (includeElement 2 "none.xml" (fallbackElement (includeElement 4 "part.xml" [])))
    let inserted := ((Stream.included "/W/main.xml" [] (.ofEvents es)).collect 60 none partStore)
    partStore.Plain ∧ Event.PairsUp es ∧
      (∃ t, (partStore.load (.ofSearchPath ["/W"] true) "part.xml" "/W/main.xml").1 = .ok t) ∧ inserted.stop? = none ∧
        inserted.events = .startTag ⟨1, 0⟩ (.plain "a") [] ::
          (includeElement 4 "part.xml" [] ++ [.endTag ⟨3, 0⟩ (.plain "a")]) := by
  refine ⟨plain_partStore, by decide +kernel, ⟨_, rfl⟩, rfl, rfl⟩

end Stream

end Stencil
