import Stencil.Proofs.Document.Translation

/-!
# Readers that are used again

A reader that reads several documents keeps where the last error was. That is the position it gives for a
document that is merely malformed, whichever document the error was in (`Document.readAll_remembers`). All
else that it says about a document is what a new reader says (`Document.readAll_fresh`).
-/

namespace Stencil

/-- The line and column that an error is reported with. -/
def Callback.errorPlace? : Callback → Option Place
  | error place _ | fatal place _ => some place
  | _ => none

/-- An error is never recorded where a new reader takes it to be. -/
theorem Place.toPosition_ne_zero {p : Place} (fits : p.line ≤ 2147483647) : p.toPosition ≠ .zero := by
  intro zero
  have line : (if 0 < p.line then UInt32.ofNat p.line.toNat else 1) = 0 := congrArg Position.line zero
  split at line
  · have value := congrArg UInt32.toNat line
    simp only [UInt32.toNat_ofNat', UInt32.toNat_zero] at value
    omega
  · cases line

namespace Document

/-- An error was reported. -/
def Fails (document : List Callback) : Prop := ∃ c ∈ document, c.failure?.isSome = true

/-- The document is malformed, and no error was reported. -/
def MerelyMalformed (document : List Callback) : Prop := .malformed ∈ document ∧ ¬ Fails document

/-- The lines of errors are machine integers. -/
def LinesFit (document : List Callback) : Prop := ∀ c ∈ document, ∀ place ∈ c.errorPlace?, place.line ≤ 2147483647

instance (document : List Callback) : Decidable (Fails document) := inferInstanceAs (Decidable (∃ c ∈ document, _))

instance (document : List Callback) : Decidable (MerelyMalformed document) := inferInstanceAs (Decidable (_ ∧ _))

variable {r : Reader} {document : List Callback} {documents : List (List Callback)}

/-! ## One document -/

theorem fails_iff : Fails document ↔ (document.findSome? Callback.failure?).isSome = true := by
  simp [Fails]

/-- A failure is told by every reader alike, and replaces what the reader has kept. -/
theorem read_fails (r : Reader) (fails : Fails document) :
    ∃ c ∈ document, ∃ place ∈ c.errorPlace?, r.read document = (read document, ⟨place.toPosition⟩) := by
  obtain ⟨⟨message, position⟩, first⟩ := Option.isSome_iff_exists.1 (fails_iff.1 fails)
  obtain ⟨c, hc, failure⟩ := List.exists_of_findSome?_eq_some first
  refine ⟨c, hc, ?_⟩
  have answer : r.read document = (read document, ⟨position⟩) := by simp [read, Reader.read_eq, first]
  cases c with
  | error place | fatal place =>
    obtain ⟨-, rfl⟩ := Prod.mk.inj (Option.some.inj failure)
    exact ⟨place, rfl, answer⟩
  | _ => cases failure

/-- A document that is merely malformed is refused at the position that the reader has kept. -/
theorem read_merelyMalformed (r : Reader) (malformed : MerelyMalformed document) :
    r.read document = (.error ⟨notWellFormed, r.errorPosition⟩, r) := by
  have noFailure : document.findSome? Callback.failure? = none := by
    simpa [fails_iff] using malformed.2
  have spoiled : document.all (!·.spoils) = false :=
    List.all_eq_false.2 ⟨.malformed, malformed.1, by simp [Callback.spoils]⟩
  simp [Reader.read_eq, noFailure, spoiled]

/-- Any other document is read by every reader alike. -/
theorem read_else (r : Reader) (succeeds : ¬ Fails document) (unspoiled : ¬ MerelyMalformed document) :
    r.read document = (read document, r) := by
  have noFailure : document.findSome? Callback.failure? = none := by
    simpa [fails_iff] using succeeds
  have wellFormed : document.all (!·.spoils) = true := by
    refine List.all_eq_true.2 fun c hc => ?_
    have quiet := List.findSome?_eq_none_iff.1 noFailure c hc
    cases c with
    | fatal => cases quiet
    | malformed => exact absurd ⟨hc, succeeds⟩ unspoiled
    | _ => rfl
  simp [read, Reader.read_eq, noFailure, wellFormed]

/-! ## One document after the other -/

/-- What a reader says about documents that it reads one after the other. -/
def Reader.readAll (r : Reader) : List (List Callback) → List (Except DocumentError (List Event))
  | [] => []
  | d :: ds => (r.read d).1 :: (r.read d).2.readAll ds

/-- Events and messages are those of new readers. -/
theorem messages_readAll (r : Reader) (documents : List (List Callback)) :
    (r.readAll documents).map (Except.mapError DocumentError.message) =
      (documents.map read).map (Except.mapError DocumentError.message) := by
  induction documents generalizing r with
  | nil => rfl
  | cons d ds ih =>
    have first : (r.read d).1.mapError DocumentError.message = (read d).mapError DocumentError.message := by
      by_cases malformed : MerelyMalformed d
      · rw [read, read_merelyMalformed _ malformed, read_merelyMalformed _ malformed]
        rfl
      · by_cases fails : Fails d
        · obtain ⟨c, -, place, -, answer⟩ := read_fails r fails
          rw [answer]
        · rw [read_else r fails malformed]
    simp only [Reader.readAll, List.map_cons, first, ih]

/-- The answers are those of new readers if and only if no document that is merely malformed comes where the reader
has kept a position. -/
theorem readAll_eq_iff (r : Reader) (fits : ∀ d ∈ documents, LinesFit d) :
    r.readAll documents = documents.map read ↔
      documents.Pairwise (fun d e => Fails d → ¬ MerelyMalformed e) ∧
        (r.errorPosition ≠ .zero → ∀ d ∈ documents, ¬ MerelyMalformed d) := by
  induction documents generalizing r with
  | nil => simp [Reader.readAll]
  | cons d ds ih =>
    obtain ⟨fitsFirst, fitsRest⟩ := List.forall_mem_cons.1 fits
    simp only [Reader.readAll, List.map_cons, List.cons.injEq, List.pairwise_cons, List.forall_mem_cons, ih _ fitsRest]
    by_cases malformed : MerelyMalformed d
    -- the only kind of document for which it matters what the reader has kept
    · rw [read, read_merelyMalformed _ malformed, read_merelyMalformed _ malformed]
      have quiet := malformed.2
      have same : (Except.error ⟨notWellFormed, r.errorPosition⟩ : Except DocumentError (List Event)) =
          .error ⟨notWellFormed, Reader.fresh.errorPosition⟩ ↔ r.errorPosition = .zero := by
        simp [Reader.fresh]
      simp only [same, malformed, not_true, quiet]
      grind
    · by_cases fails : Fails d
      · obtain ⟨c, hc, place, there, answer⟩ := read_fails r fails
        have set : place.toPosition ≠ .zero := Place.toPosition_ne_zero (fitsFirst c hc place there)
        simp only [answer, fails, malformed]
        grind
      · simp only [read_else r fails malformed, fails, malformed]
        grind

/-- A reader gives the events and messages that new readers give. The positions are those of new readers, too, if and
only if no document that is merely malformed comes after one in which an error was reported. -/
theorem readAll_fresh (fits : ∀ d ∈ documents, LinesFit d) :
    (Reader.fresh.readAll documents).map (Except.mapError DocumentError.message) =
        (documents.map read).map (Except.mapError DocumentError.message) ∧
      (Reader.fresh.readAll documents = documents.map read ↔
        documents.Pairwise fun d e => Fails d → ¬ MerelyMalformed e) := by
  refine ⟨messages_readAll _ _, ?_⟩
  rw [readAll_eq_iff Reader.fresh fits]
  exact and_iff_left fun kept => absurd rfl kept

/-- A document that is merely malformed, an error, a document and another error. -/
theorem readAll_fresh_mixed :
    let documents : List (List Callback) :=
      [[.malformed], [.error ⟨4, 7⟩ "Document is empty", .malformed],
        [.startElement ⟨1, 3⟩ ⟨"a", none, none⟩ [] [], .endElement ⟨1, 9⟩ ⟨"a", none, none⟩], [.fatal ⟨2, 1⟩ ""]]
    (∀ d ∈ documents, LinesFit d) ∧
      Reader.fresh.readAll documents = documents.map read := by
  intro documents
  have fits : ∀ d ∈ documents, LinesFit d := by
    simp [documents, LinesFit, Callback.errorPlace?]
  exact ⟨fits, (readAll_fresh fits).2.2 (by decide)⟩

/-- After an error, a document that is merely malformed is said to be so at the position of that error. A new reader
has no position for it. -/
theorem readAll_remembers :
    let documents : List (List Callback) := [[.error ⟨5, 3⟩ "bad"], [.malformed]]
    Reader.fresh.readAll documents = [.error ⟨"bad", ⟨5, 2⟩⟩, .error ⟨notWellFormed, ⟨5, 2⟩⟩] ∧
      documents.map read = [.error ⟨"bad", ⟨5, 2⟩⟩, .error ⟨notWellFormed, ⟨0, 0⟩⟩] ∧
      Reader.fresh.readAll documents ≠ documents.map read := by
  intro documents
  have reused : Reader.fresh.readAll documents = [.error ⟨"bad", ⟨5, 2⟩⟩, .error ⟨notWellFormed, ⟨5, 2⟩⟩] := rfl
  have new : documents.map read = [.error ⟨"bad", ⟨5, 2⟩⟩, .error ⟨notWellFormed, ⟨0, 0⟩⟩] := rfl
  refine ⟨reused, new, ?_⟩
  rw [reused, new]
  simp

end Document

end Stencil
