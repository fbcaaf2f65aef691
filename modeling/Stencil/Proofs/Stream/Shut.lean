import Stencil.Proofs.Library.Plain
import Stencil.Proofs.Stream.Included

/-!
# Include elements that come out

An include stream yields no start tag of an include element that it reads itself, and what an included template yields
has come out of an include stream of its own (`Stream.Shut`). Only the content of a fallback is not read again
(`Stream.fallback`): a start tag that comes out was in a fallback (`Stream.run_shut`).
-/

namespace Stencil

namespace Stream

/-- What is left of a list of events. -/
def listed : Stream → List Event
  | replay (.plain es) => es
  | _ => []

/-- The events of fallbacks that are still to come in place of include elements. -/
def fallback : Stream → List Event
  | inserting _ _ _ inserted _ => inserted.listed ++ inserted.fallback
  | append first rest => first.fallback ++ rest.fallback
  | expanded _ _ u | tidied _ _ u => u.fallback
  | _ => []

/-- All that comes out has come out of an include stream or of a fallback. -/
def Shut : Stream → Prop
  | replay (.plain es) => es = []
  | included .. | including .. => True
  | inserting _ _ _ inserted _ => (∃ es, inserted = .ofEvents es) ∨ inserted.Shut
  | append first rest => first.Shut ∧ rest.Shut
  | expanded t _ u => t.IsPlain ∧ u.Shut
  | tidied pending? _ u => (∀ e ∈ pending?, e.isInclude = false) ∧ u.Shut
  | _ => False

end Stream

/-- The step yields no start tag of an include element, and leads to such a stream. -/
def Advance.Shut : Advance → Prop
  | yield e u _ => e.isInclude = false ∧ u.Shut
  | skip u _ | done u _ => u.Shut
  | fail .. => True

theorem Event.isInclude_indent (n : Nat) (e : Event) : (e.indent n).isInclude = e.isInclude := by
  cases e <;> rfl

namespace Stream

variable {k : Nat} {u v : Stream} {s t : Store} {es : List Event}

theorem shut_filtered {m : Template} (isPlain : m.IsPlain) (u : Stream) : (u.filtered m.expansionFilters).Shut := by
  obtain ⟨file, first⟩ := isPlain.first
  rw [Template.expansionFilters, first, isPlain.filters]
  trivial

theorem shut_tidied (text? : Option (Position × Text)) (shut : u.Shut) : (Stream.tidied none text? u).Shut :=
  ⟨by simp, shut⟩

theorem shut_expansion {m : Template} (isPlain : m.IsPlain) : m.expansion.Shut := by
  rw [Template.expansion, isPlain.last]
  exact shut_tidied none ⟨isPlain, shut_filtered isPlain _⟩

/-! ## Steps -/

theorem shut_stepIncluded (filename : Text) (noted : List Text) (a : Advance) : (stepIncluded filename noted a).Shut := by
  cases a with
  | yield e u s =>
    cases e with
    | startTag p name as =>
      simp only [stepIncluded]
      split
      · trivial
      · rename_i other
        exact ⟨Bool.eq_false_iff.2 other, trivial⟩
    | startNamespace | endNamespace =>
      simp only [stepIncluded]
      split
      · trivial
      · exact ⟨rfl, trivial⟩
    | _ => exact ⟨rfl, trivial⟩
  | _ => trivial

/-- What is inserted is an expansion or a fallback. -/
theorem shut_insert (filename : Text) (noted : List Text) (i : Inclusion) (u : Stream) (h : s.Plain) :
    (insert filename noted i u s).Shut := by
  unfold insert
  dsimp only
  split
  · split
    · trivial
    · rename_i l library
      have loads := h.load library (i.attributes.textOf "href") filename
      split
      · rename_i m s' loaded
        rw [loaded] at loads
        exact .inr (shut_expansion (loads.2 m rfl))
      · unfold fallBack
        split
        · exact .inl ⟨_, rfl⟩
        · trivial
  · trivial

theorem shut_stepIncluding (filename : Text) (noted : List Text) (i : Inclusion) {a : Advance} (h : a.store.Plain) :
    (stepIncluding filename noted i a).Shut := by
  cases a with
  | yield e u s =>
    simp only [stepIncluding]
    split
    · exact shut_insert filename noted _ u h
    · trivial
  | done u s => exact shut_insert filename noted i u h
  | _ => trivial

theorem shut_stepInserting (filename : Text) (noted : List Text) (n : Nat) (u : Stream) {a : Advance} (h : a.Shut) :
    (stepInserting filename noted n u a).Shut := by
  cases a with
  | yield e inserted s =>
    have next : stepInserting filename noted n u (.yield e inserted s) =
        .yield (e.indent n) (.inserting filename noted n inserted u) s := by cases e <;> rfl
    rw [next]
    exact ⟨(e.isInclude_indent n).trans h.1, .inr h.2⟩
  | skip => exact .inr h
  | done | fail => trivial

/-- The events of a fallback are inserted as they are. -/
theorem shut_inserting (filename : Text) (noted : List Text) (n : Nat) (u : Stream)
    (quiet : ∀ e ∈ es, e.isInclude = false) (s : Store) :
    (stepInserting filename noted n u (step k (.ofEvents es) s)).Shut := by
  cases es with
  | nil => trivial
  | cons e es =>
    have next : stepInserting filename noted n u (step k (.ofEvents (e :: es)) s) =
        .yield (e.indent n) (.inserting filename noted n (.ofEvents es) u) s := by cases e <;> rfl
    rw [next]
    exact ⟨(e.isInclude_indent n).trans (quiet e List.mem_cons_self), .inl ⟨es, rfl⟩⟩

theorem shut_stepTidied (text? : Option (Position × Text)) {a : Advance} (h : a.Shut) : (stepTidied text? a).Shut := by
  cases a with
  | yield e u s =>
    cases e with
    | text p t => exact shut_tidied (some (addText text? p t)) h.2
    | _ =>
      cases text? with
      | none => exact ⟨h.1, shut_tidied none h.2⟩
      | some => exact ⟨rfl, by simpa using h.1, h.2⟩
  | skip => exact shut_tidied text? h
  | done u s =>
    cases text? with
    | none => exact shut_tidied none h
    | some => exact ⟨rfl, shut_tidied none h⟩
  | fail => trivial

theorem shut_stepExpanded {m : Template} (last : Position) (isPlain : m.IsPlain) {a : Advance} (h : a.Shut) :
    (stepExpanded m last a).Shut := by
  cases a with
  | yield e u s =>
    cases e with
    | sub p ds es => exact ⟨isPlain, shut_filtered isPlain _, h.2⟩
    | _ => exact ⟨h.1, isPlain, h.2⟩
  | skip => exact ⟨isPlain, h⟩
  | done => exact rfl
  | fail => trivial

/-- **No step yields the start tag of an include element**, unless it stands in a fallback. -/
theorem step_shut (k : Nat) (shut : u.Shut) (h : s.Plain) (quiet : ∀ e ∈ u.fallback, e.isInclude = false) :
    (step k u s).Shut := by
  induction u generalizing s with
  | replay q =>
    cases q with
    | plain es =>
      cases shut
      exact rfl
    | _ => exact shut.elim
  | included filename noted u => exact shut_stepIncluded filename noted _
  | including filename noted i u => exact shut_stepIncluding filename noted i (step_plain k u h)
  | inserting filename noted n inserted u ih =>
    obtain ⟨fromList, fromStream⟩ := List.forall_mem_append.1 quiet
    rcases shut with ⟨es, rfl⟩ | shut
    · exact shut_inserting filename noted n u fromList s
    · exact shut_stepInserting filename noted n u (ih shut h fromStream)
  | append first rest ih =>
    have inner := ih shut.1 h (List.forall_mem_append.1 quiet).1
    simp only [step]
    generalize step k first s = a at inner
    cases a with
    | yield e u s => exact ⟨inner.1, inner.2, shut.2⟩
    | skip u s => exact ⟨inner, shut.2⟩
    | done u s => exact shut.2
    | fail => trivial
  | expanded m last u ih => exact shut_stepExpanded last shut.1 (ih shut.2 h quiet)
  | tidied pending? text? u ih =>
    cases pending? with
    | some e => exact ⟨shut.1 e rfl, shut_tidied none shut.2⟩
    | none => exact shut_stepTidied text? (ih shut.2 h quiet)
  | _ => exact shut.elim

/-- **No run yields the start tag of an include element**, unless it comes to one in a fallback. -/
theorem run_shut (run : Run k u s es v t) (shut : u.Shut) (h : s.Plain)
    (quiet : ∀ fs x q, Run k u s fs x q → ∀ e ∈ x.fallback, e.isInclude = false) : ∀ e ∈ es, e.isInclude = false := by
  induction run with
  | refl => simp
  | @skip u _ _ s _ _ _ first _ ih =>
    have next := step_shut k shut h (quiet [] u s (.refl u s))
    have plain := step_plain k u h
    rw [first] at next plain
    exact ih next plain fun fs x q after => quiet fs x q (.skip first after)
  | @yield u _ _ s _ _ _ _ first _ ih =>
    have next := step_shut k shut h (quiet [] u s (.refl u s))
    have plain := step_plain k u h
    rw [first] at next plain
    exact List.forall_mem_cons.2 ⟨next.1, ih next.2 plain fun fs x q after => quiet _ x q (.yield first after)⟩

end Stream

end Stencil
