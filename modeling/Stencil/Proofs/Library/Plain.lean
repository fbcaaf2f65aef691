import Stencil.Proofs.Library.Loading
import Stencil.Proofs.Stream.Changes
import Stencil.Proofs.Stream.Included
import Stencil.Proofs.Template.Leaves

/-!
# Files without match templates

If no file has `match` directives, then each template that can be loaded from them replaces include elements and
substitutes no others (`Store.Plain.load`). This stays so, whatever the streams do (`Stream.step_plain`), and so an
include stream reads on behind an include element as it did before (`Stream.Weaves.unfiltered`).
-/

namespace Stencil

/-- A start tag with a `match` directive. -/
def Event.hasMatch : Event → Bool
  | startTag _ _ as => as.any fun a => Compile.isDirective a && a.name.base == DirectiveName.capture.spelling
  | _ => false

/-- The filters are those that every template of a library has, and there are no others. -/
structure Template.IsPlain (t : Template) : Prop where
  first : ∃ file, t.preFilters = [.evaluate, .inclusion file]
  filters : t.filters = []
  last : t.postFilters = [.tidy]

namespace Compile

open Stencil.Stream

theorem ReadsTo.filters {n : DirectiveName} {value : Text} {body : BodyId} {r : DirectiveReading}
    (h : ReadsTo value body n r) (other : n ≠ .capture) : r.filters = [] := by
  cases h with
  | capture => exact absurd rfl other
  | _ => rfl

/-- Without `match` directives there are no filters. -/
theorem filters_of_template {t : Target} {es : List Event} {template : Template}
    (plain : ∀ e ∈ es, e.hasMatch = false) (compiled : Compile.template t es = .ok template) :
    template.preFilters = [.evaluate] ∧ template.filters = [] ∧ template.postFilters = [.tidy] := by
  have makes : Makes t es (fun _ => True) (fun _ => True) (fun _ => False) := {
    leaf := fun _ _ _ _ => trivial
    reading := by
      intro p name as member a ha directive index r read
      obtain ⟨n, spelling, -, named⟩ := readNamed_of_read read
      have other : n ≠ .capture := by
        rintro rfl
        have found : (Event.startTag p name as).hasMatch = true :=
          List.any_eq_true.2 ⟨a, ha, by rw [directive, ← spelling]; exact beq_self_eq_true _⟩
        cases found.symm.trans (plain _ member)
      rw [(readsTo_of_readNamed named).filters other]
      simp
    element := fun _ _ _ => trivial }
  obtain ⟨-, filters, first, last, -⟩ := makes.template compiled
  exact ⟨first, List.eq_nil_iff_forall_not_mem.2 filters, last⟩

end Compile

theorem Content.isPlain_compile {c : Content} {target : Compile.Target} {t : Template}
    (plain : ∀ es, Document.read (Store.documentOf c) = .ok es → ∀ e ∈ es, e.hasMatch = false)
    (compiled : c.compile target = .ok t) : t.IsPlain := by
  unfold compile at compiled
  split at compiled
  · rename_i m result
    obtain ⟨es, read, template⟩ := Compile.events_of_document result
    obtain ⟨first, filters, last⟩ := Compile.filters_of_template (plain es read) template
    cases compiled
    exact ⟨⟨target.filename, by rw [first]; rfl⟩, filters, last⟩
  · cases compiled

namespace Store

variable {s t : Store} {l : Library}

/-- No file has `match` directives, and no template that is kept was compiled from such a file. -/
structure Plain (s : Store) : Prop where
  files : ∀ path c, s.files.content path = .ok c → ∀ es, Document.read (documentOf c) = .ok es → ∀ e ∈ es, e.hasMatch = false
  holdings : ∀ l, s.library? = some l → ∀ h ∈ l.holdings, h.2.template.IsPlain

/-- The files of a tree. -/
theorem plain_of_documents {t : FileTree} (holds : ∀ path c, s.files.content path = .ok c → t.content path = .ok c)
    (plain : ∀ document ∈ t.documents, ∀ es ∈ (Document.read document).toOption, ∀ e ∈ es, e.hasMatch = false)
    (none : ∀ l, s.library? = some l → l.holdings = []) : s.Plain where
  files := by
    intro path c held es read e he
    cases c with
    | document document =>
      refine plain document (FileTree.mem_documents (holds _ _ held)) es ?_ e he
      rw [show Document.read document = .ok es from read]
      rfl
    | text => cases read
  holdings := by
    intro l library
    rw [none l library]
    exact nofun

/-- **What is loaded has no match templates.** -/
theorem Plain.load (h : s.Plain) (library : s.library? = some l) (name relativeTo : Text) :
    (s.load l name relativeTo).2.Plain ∧ ∀ t, (s.load l name relativeTo).1 = .ok t → t.IsPlain := by
  obtain ⟨files, loads⟩ := s.load_loads l name relativeTo
  generalize outcome : (s.load l name relativeTo).1 = r at loads ⊢
  generalize after : (s.load l name relativeTo).2.library? = l'? at loads
  have holds {l' : Library} (kept : (s.load l name relativeTo).2.library? = some l')
      (all : ∀ h ∈ l'.holdings, h.2.template.IsPlain) : (s.load l name relativeTo).2.Plain := by
    refine ⟨by rw [files]; exact h.files, fun l'' found => ?_⟩
    cases kept.symm.trans found
    exact all
  cases loads with
  | refused e => exact ⟨holds (after.trans library) (h.holdings l library), nofun⟩
  | @kept path holding found =>
    refine ⟨holds (after.trans library) (h.holdings l library), ?_⟩
    rintro _ ⟨⟩
    obtain ⟨entry, member, rfl⟩ := Option.map_eq_some_iff.1 found
    exact h.holdings l library entry (List.mem_of_find?_eq_some member)
  | @compiled path c number t time content compiled =>
    have isPlain : t.IsPlain := Content.isPlain_compile (h.files path c content) compiled
    refine ⟨holds after fun entry member => ?_, ?_⟩
    · rcases List.mem_append.1 member with old | new
      · exact h.holdings l library entry (List.mem_filter.1 old).1
      · rw [List.mem_singleton.1 new]
        exact isPlain
    · rintro _ ⟨⟩
      exact isPlain

theorem Changes.plain (changes : s.Changes t) (h : s.Plain) : t.Plain := by
  induction changes with
  | other replays files library => exact ⟨by rw [files]; exact h.files, by rw [library]; exact h.holdings⟩
  | made made =>
    rw [made.only]
    exact ⟨h.files, h.holdings⟩
  | read => exact ⟨h.files, h.holdings⟩
  | load library name relativeTo => exact (h.load library name relativeTo).1
  | trans _ _ ih ih' => exact ih' (ih h)

end Store

namespace Stream

variable {k : Nat} {u v w : Stream} {s t r : Store} {es : List Event} {stop? : Option Stop}

/-- **Whatever a stream does, no match templates come up.** -/
theorem step_plain (k : Nat) (u : Stream) (h : s.Plain) : (step k u s).store.Plain := (step_changes k u s).plain h

theorem Run.plain (run : Run k u s es v t) (h : s.Plain) : t.Plain := by
  induction run with
  | refl => exact h
  | @skip u _ _ _ _ _ _ first _ ih | @yield u _ _ _ _ _ _ _ first _ ih =>
    have next := step_plain k u h
    rw [first] at next
    exact ih next

theorem Completes.plain (completes : Completes k u s es stop? w r) (h : s.Plain) : r.Plain := by
  obtain ⟨v, t, run, last⟩ := completes
  have next := step_plain k v (run.plain h)
  rw [last] at next
  cases stop? <;> exact next

theorem close_plain (u : Stream) (h : s.Plain) : (u.close s).Plain := (changes_close u s).plain h

/-! ## Include streams -/

variable {filename : Text} {noted : List Text} {p : Position} {as : Attributes} {ns : List Part} {out : List Event}
  {fs : List Filter} {ps : List Passage}

/-- Templates without match templates add no filters. -/
theorem Replaces.plain (replaces : Replaces k filename p as ns s es fs r) (h : s.Plain) : r.Plain ∧ fs = [] := by
  cases replaces with
  | template named library loaded expands =>
    have loads := h.load library (as.textOf "href") filename
    rw [loaded] at loads
    exact ⟨close_plain _ (expands.plain loads.1), (loads.2 _ rfl).filters⟩
  | fallback named library missing content =>
    have loads := h.load library (as.textOf "href") filename
    rw [missing] at loads
    exact ⟨⟨loads.1.files, loads.1.holdings⟩, rfl⟩

/-- Nothing is put between the include stream and what it reads. -/
theorem Weaves.unfiltered (weaves : Weaves k filename noted u s ps out w r) (h : s.Plain) :
    ∀ n inserted fs, .element n inserted fs ∈ ps → fs = [] := by
  induction weaves with
  | ended | cut => simp
  | event first other rest ih =>
    intro n inserted fs member
    exact ih (first.plain h) n inserted fs (by simpa using member)
  | @element _ _ v v' _ _ t t' _ _ _ _ _ _ _ _ _ _ _ _ inside ends isInclude replaces rest ih =>
    have before := step_plain k v (inside.plain h)
    rw [ends] at before
    obtain ⟨after, none⟩ := replaces.plain before
    intro n inserted fs member
    rcases List.mem_cons.1 member with same | member
    · cases same
      exact none
    · exact ih after n inserted fs member

end Stream

end Stencil
