import Mathlib.Data.List.Basic
import Stencil.Document.Reader
import Stencil.Proofs.Document.Forest

/-!
# What documents are read to

A document is read to markup events (`Document.fromDocument_of_read`). Texts are not empty, and the attributes of a start tag
have distinct names and values in one piece.
-/

namespace Stencil

namespace Attributes

/-- No two attributes have the same name. This is so for attributes that are set one by one. -/
def Distinct (as : Attributes) : Prop := as.Pairwise fun a b => a.name.same b.name = false

/-- An attribute that is not the one that was set was there before. -/
theorem mem_set {as : Attributes} {name : QName} {value : List Fragment} {a : Attribute} (h : a ∈ as.set name value) :
    a.name.same name = true ∧ a.value = value ∨ a ∈ as := by
  induction as with
  | nil =>
    rw [List.mem_singleton.1 h]
    exact .inl (by simp [QName.same])
  | cons b as ih =>
    simp only [set] at h
    split at h
    · rename_i same
      rcases List.mem_cons.1 h with rfl | h
      · exact .inl ⟨same, rfl⟩
      · exact .inr (List.mem_cons_of_mem _ h)
    · rcases List.mem_cons.1 h with rfl | h
      · exact .inr List.mem_cons_self
      · exact (ih h).imp_right (List.mem_cons_of_mem _)

/-- Setting an attribute keeps names distinct. -/
theorem Distinct.set {as : Attributes} (h : as.Distinct) (name : QName) (value : List Fragment) :
    (as.set name value).Distinct := by
  induction as with
  | nil => exact List.pairwise_singleton _ _
  | cons a as ih =>
    obtain ⟨first, rest⟩ := List.pairwise_cons.1 h
    simp only [Attributes.set]
    split
    · exact List.pairwise_cons.2 ⟨first, rest⟩
    · rename_i other
      refine List.pairwise_cons.2 ⟨fun b hb => ?_, ih rest⟩
      rcases mem_set hb with ⟨same, -⟩ | hb
      · simp only [QName.same, Bool.and_eq_true, beq_iff_eq] at same other ⊢
        rw [same.1, same.2]
        simpa using other
      · exact first b hb

/-- Names stay distinct in any order. -/
theorem Distinct.perm {as as' : Attributes} (h : as.Distinct) (perm : List.Perm as as') : as'.Distinct := by
  refine (perm.pairwise_iff fun {a b} apart => ?_).1 h
  rw [← apart, QName.same, QName.same, Bool.beq_comm, Bool.beq_comm (a := b.name.base)]

end Attributes

/-- The attributes of a start tag in a document are set one by one. -/
theorem Document.attributes_of_set {P : Attributes → Prop} (none : P [])
    (set : ∀ as name t, P as → P (Attributes.setText as name t)) (raw : List RawAttribute) : P (attributes raw) := by
  have sets : ∀ (raw : List RawAttribute) (as : Attributes), P as →
      P (raw.foldl (fun as a => as.setText a.name.toQName a.value) as) := by
    intro raw
    induction raw with
    | nil => exact fun as h => h
    | cons a raw ih => exact fun as h => ih _ (set _ _ _ h)
  exact sets raw [] none

/-- They are distinct. -/
theorem Document.distinct_attributes (raw : List RawAttribute) : (Document.attributes raw).Distinct :=
  attributes_of_set List.Pairwise.nil (fun as _ _ (h : as.Distinct) => h.set _ _) raw

/-- Their values are in one piece. -/
theorem Document.whole_attributes (raw : List RawAttribute) :
    ∀ a ∈ Document.attributes raw, ∃ t, a.value = [.literal t] := by
  refine attributes_of_set (P := fun as => ∀ a ∈ as, ∃ t, a.value = [.literal t]) (by simp) ?_ raw
  intro as name t whole a ha
  rcases Attributes.mem_set ha with ⟨-, value⟩ | before
  · exact ⟨t, value⟩
  · exact whole a before

namespace Event

/-- The events that documents are read to: texts are not empty, and the attributes of a tag are set one by one. -/
inductive FromDocument : Event → Prop
  | text (p : Position) {t : Text} (some : t ≠ []) : FromDocument (.text p t)
  | startTag (p : Position) (name : QName) (raw : List RawAttribute) :
    FromDocument (.startTag p name (Document.attributes raw))
  | other {e : Event} (markup : e.isMarkup = true) (noTag : e.isStart = false) (noText : ∀ p t, e ≠ .text p t) :
    FromDocument e

/-- Events that a document can be read to. -/
structure Readable (e : Event) : Prop where
  markup : e.isMarkup = true
  distinct : ∀ p name as, e = .startTag p name as → Attributes.Distinct as

theorem FromDocument.readable {e : Event} (h : e.FromDocument) : e.Readable := by
  cases h with
  | text p some => exact ⟨rfl, by simp⟩
  | startTag p name raw =>
    refine ⟨rfl, ?_⟩
    rintro _ _ _ ⟨⟩
    exact Document.distinct_attributes raw
  | other markup noTag noText =>
    refine ⟨markup, ?_⟩
    rintro p name as rfl
    cases noTag

end Event

namespace Document

theorem fromDocument_flush (s : State) : ∀ e ∈ s.flush.1, e.FromDocument := by
  intro e he
  unfold State.flush at he
  split at he
  · cases he
  · rename_i pending
    rw [List.mem_singleton.1 he]
    exact .text _ (by simpa using pending)

theorem fromDocument_emit (s : State) (place : Place) {make : Position → List Event}
    (h : ∀ p, ∀ e ∈ make p, e.FromDocument) : ∀ e ∈ (s.emit place make).1, e.FromDocument := by
  intro e he
  rcases List.mem_append.1 he with pending | made
  · exact fromDocument_flush s e pending
  · exact h _ e made

theorem fromDocument_step (s : State) (c : Callback) : ∀ e ∈ (step s c).1, e.FromDocument := by
  cases c with
  | startElement place name namespaces raw =>
    change ∀ e ∈ (s.emit place fun p => namespaces.map (fun n => Event.startNamespace p (Text.ofRaw n.pre?)
      (Text.ofRaw n.uri?)) ++ [.startTag p name.toQName (attributes raw)]).1, e.FromDocument
    apply fromDocument_emit
    intro p e he
    rcases List.mem_append.1 he with declaration | tag
    · obtain ⟨n, -, rfl⟩ := List.mem_map.1 declaration
      exact .other rfl rfl (by simp)
    · rw [List.mem_singleton.1 tag]
      exact .startTag p _ raw
  | endElement place name =>
    change ∀ e ∈ (s.emit place fun p => .endTag p name.toQName ::
      (s.declared.headD []).reverse.map (Event.endNamespace p)).1, e.FromDocument
    apply fromDocument_emit
    intro p e he
    rcases List.mem_cons.1 he with rfl | declaration
    · exact .other rfl rfl (by simp)
    · obtain ⟨n, -, rfl⟩ := List.mem_map.1 declaration
      exact .other rfl rfl (by simp)
  | comment place | instruction place | doctype place =>
    apply fromDocument_emit
    intro p e he
    rw [List.mem_singleton.1 he]
    exact .other rfl rfl (by simp)
  | characters | error | fatal | malformed =>
    intro e he
    cases he

theorem fromDocument_run (s : State) (document : List Callback) : ∀ e ∈ (run s document).1, e.FromDocument := by
  induction document generalizing s with
  | nil => exact fromDocument_flush s
  | cons c cs ih =>
    intro e he
    rcases List.mem_append.1 he with first | rest
    · exact fromDocument_step s c e first
    · exact ih _ e rest

theorem fromDocument_of_read {document : List Callback} {es : List Event} (h : read document = .ok es) :
    ∀ e ∈ es, e.FromDocument := by
  have events : es = (run .initial document).1 := by
    unfold read Reader.read at h
    dsimp only at h
    split at h
    · cases h
    · split at h
      · cases h
        rfl
      · cases h
  rw [events]
  exact fromDocument_run _ _

/-- A document is read to events that are markup, in which the attributes of a tag are distinct. -/
theorem readable_of_read {document : List Callback} {es : List Event} (h : read document = .ok es) :
    ∀ e ∈ es, e.Readable := fun e he => (fromDocument_of_read h e he).readable

end Document

end Stencil
