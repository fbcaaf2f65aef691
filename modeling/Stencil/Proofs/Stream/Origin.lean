import Stencil.Proofs.Stream.Failing
import Stencil.Proofs.Stream.Kept
import Stencil.Proofs.Template.Leaves

/-!
# Where events come from

The expansion of a template evaluates events that stem from its file, as long as the events that functions and match
templates keep for later do not get from one file into the expansion of another. This is so if no file has functions or
match templates, or if one file takes part alone (`Sources`). Then all events that an element with directives is made
to stem from the file of the element (`Stream.step_of`).
-/

open Stencil.Compile Stencil.Stream

namespace Stencil

/-! ## Files -/

/-- The event is one of a document that the file holds or has held. -/
def Event.IsRead (documents : Text → List Callback → Prop) (file : Text) (e : Event) : Prop :=
  ∃ document es, documents file document ∧ Document.read document = .ok es ∧ e ∈ es

/-- A file that takes part alone has no include elements, any other one no functions and match templates. -/
def Event.Admitted (alone : Bool) : Event → Prop
  | .startTag _ name as => if alone then name.same includeName = false else
      ∀ a ∈ as, isDirective a = true → a.name.base ≠ DirectiveName.define.spelling ∧ a.name.base ≠ DirectiveName.capture.spelling
  | _ => True

/-- The documents that files hold or have held, and the file that takes part alone, if there is one. -/
structure Sources where
  documents : Text → List Callback → Prop
  only? : Option Text
  admitted : ∀ file, (∀ f ∈ only?, file = f) → ∀ e : Event, e.IsRead documents file → e.Admitted only?.isSome

/-- The file takes part. -/
def Sources.TakesPart (w : Sources) (file : Text) : Prop := ∀ f ∈ w.only?, file = f

/-- The event is one of the file. -/
def Sources.Reads (w : Sources) (file : Text) (e : Event) : Prop := e.IsRead w.documents file

/-! ## Events of a file -/

/-- The expression is that of a directive. -/
def Expression.Directs (source : Event → Prop) (x : Expression) : Prop :=
  ∃ p name as, source (.startTag p name as) ∧ ∃ a ∈ as, isDirective a = true ∧ Directive.optionalExpression a.text = some x

/-- The event comes from the events of a document: a tag from a tag, an expression from a text or from a directive that
puts it in the place of an event. -/
def Event.Stems (source : Event → Prop) : Event → Prop
  | .startTag p name _ => ∃ as, source (.startTag p name as)
  | .expression p x => (∃ text, source (.text p text) ∧ .expression x ∈ interpolate text) ∨
      (∃ d, source d ∧ d.position = p) ∧ x.Directs source
  | e => ∃ d, source d ∧ d.position = e.position

mutual

/-- The event and all events in it come from the file. -/
def Event.Of (w : Sources) (file : Text) : Event → Prop
  | .startTag p name as => (Event.startTag p name as).Stems (w.Reads file) ∧
      (w.only?.isSome = true → name.same includeName = false)
  | .sub p ds es => (∃ d, w.Reads file d ∧ d.position = p) ∧ Directive.AllOf w file ds ∧ Event.AllOf w file es
  | e => e.Stems (w.Reads file)

def Event.AllOf (w : Sources) (file : Text) : List Event → Prop
  | [] => True
  | e :: es => e.Of w file ∧ Event.AllOf w file es

/-- All events in the directive come from the file, and it captures events only if the file takes part alone. -/
def Directive.Of (w : Sources) (file : Text) : Directive → Prop
  | .replace x | .content x => x.Directs (w.Reads file)
  | .define .. | .capture _ => w.only? = some file
  | .expand _ matched => w.only? = some file ∧ Event.AllOf w file matched
  | _ => True

def Directive.AllOf (w : Sources) (file : Text) : List Directive → Prop
  | [] => True
  | d :: ds => d.Of w file ∧ Directive.AllOf w file ds

end

/-- The event comes from the file that takes part alone. -/
def Event.Shared (w : Sources) (e : Event) : Prop := ∃ file, w.only? = some file ∧ e.Of w file

variable {w : Sources} {file : Text}

theorem Event.allOf_iff {es : List Event} : Event.AllOf w file es ↔ ∀ e ∈ es, e.Of w file := by
  induction es with
  | nil => simp [Event.AllOf]
  | cons e es ih => simp [Event.AllOf, ih]

theorem Directive.allOf_iff {ds : List Directive} : Directive.AllOf w file ds ↔ ∀ d ∈ ds, d.Of w file := by
  induction ds with
  | nil => simp [Directive.AllOf]
  | cons d ds ih => simp [Directive.AllOf, ih]

theorem Event.of_sub {p : Position} {ds : List Directive} {es : List Event} :
    (Event.sub p ds es).Of w file ↔
      (∃ d, w.Reads file d ∧ d.position = p) ∧ (∀ d ∈ ds, d.Of w file) ∧ ∀ e ∈ es, e.Of w file := by
  simp only [Event.Of, Directive.allOf_iff, Event.allOf_iff]

theorem Event.Of.position {e : Event} (h : e.Of w file) : ∃ d, w.Reads file d ∧ d.position = e.position := by
  cases e with
  | startTag p name as =>
    obtain ⟨⟨as, source⟩, -⟩ := h
    exact ⟨_, source, rfl⟩
  | expression p x =>
    rcases h with ⟨text, source, -⟩ | ⟨placed, -⟩
    · exact ⟨_, source, rfl⟩
    · exact placed
  | sub p ds es => exact h.1
  | _ => exact h

theorem Event.Of.stems {e : Event} (h : e.Of w file) : e.Stems (w.Reads file) := by
  cases e with
  | startTag p name as => exact h.1
  | sub p ds es => exact h.1
  | _ => exact h

/-- A text in the place of an event. -/
theorem Event.Of.text {e : Event} (h : e.Of w file) (t : Text) : (Event.text e.position t).Of w file := h.position

/-- The expression of a directive in the place of an event. -/
theorem Event.Of.expression {e : Event} {x : Expression} (h : e.Of w file) (directs : x.Directs (w.Reads file)) :
    (Event.expression e.position x).Of w file := .inr ⟨h.position, directs⟩

theorem Event.Of.shared {e : Event} (h : e.Of w file) (only : w.only? = some file) : e.Shared w := ⟨file, only, h⟩

theorem Event.Shared.of {e : Event} (h : e.Shared w) (takes : w.TakesPart file) : e.Of w file := by
  obtain ⟨f, only, own⟩ := h
  exact takes f only ▸ own

/-! ## Stores -/

/-- Functions that select from events of the file that takes part alone. -/
def Stock.sharing (w : Sources) : Stock where
  function f := match f.kind with
    | .select matched => ∀ e ∈ matched, e.Shared w
    | _ => True
  stream _ := True

theorem Stock.suits_sharing : (Stock.sharing w).Suits (Event.Shared w) where
  builtin := by rintro id kind (rfl | rfl | rfl | rfl) <;> trivial
  stream := fun _ => trivial
  select := by
    rintro ⟨id, kind⟩ matched made rfl path e he
    rcases Path.mem_select he with old | ⟨d, hd, t, rfl⟩
    · exact made e old
    · obtain ⟨file, only, own⟩ := made d hd
      exact ⟨file, only, own.text t⟩

/-- The template has been compiled from a document of the file, to be used with others. -/
def Template.IsFrom (w : Sources) (file : Text) (t : Template) : Prop :=
  ∃ id registry document m, w.documents file document ∧ (Compilation.ofDocument ⟨id, file, registry⟩ document).result = .ok m ∧
    t = { m with preFilters := m.preFilters ++ [.inclusion file] }

/-- What the store keeps for later is shared, and its files and templates are known. -/
structure Store.Of (w : Sources) (s : Store) : Prop where
  keeps : s.Keeps (Event.Shared w) (.sharing w)
  files : ∀ path document, s.files.content path = .ok (.document document) → w.documents path document
  holdings : ∀ l ∈ s.library?, ∀ h ∈ l.holdings, ∃ file, h.2.template.IsFrom w file

namespace Store.Of

variable {s : Store}

theorem withContext (h : s.Of w) {c : Context} (made : c.From (.sharing w)) : Of w { s with context := c } :=
  ⟨h.keeps.withContext made, h.files, h.holdings⟩

theorem setReplay (h : s.Of w) (id : Nat) {r : Replay} (kept : r.Keeps (Event.Shared w) (.sharing w)) :
    (s.setReplay id r).Of w := ⟨h.keeps.setReplay id kept, h.files, h.holdings⟩

theorem numbered (h : s.Of w) (n : Nat) : Of w { s with nextFunction := n } := ⟨h.keeps.numbered n, h.files, h.holdings⟩

theorem pushFrame (h : s.Of w) {frame : Frame} (made : Entries.From (.sharing w) frame) : (s.pushFrame frame).Of w :=
  ⟨h.keeps.pushFrame made, h.files, h.holdings⟩

theorem releaseFrom (h : s.Of w) (depth : Nat) : (s.releaseFrom depth).Of w :=
  ⟨h.keeps.releaseFrom depth, h.files, h.holdings⟩

theorem report (h : s.Of w) (level : LogLevel) (message : Text) : (s.report level message).Of w :=
  ⟨⟨h.keeps.context, h.keeps.bodies, h.keeps.replay⟩, h.files, h.holdings⟩

theorem capture (h : s.Of w) (b : BodyId) {es : List Event} (kept : ∀ e ∈ es, e.Shared w) : (s.capture b es).Of w := by
  refine ⟨h.keeps.capture b kept, ?_, ?_⟩
  all_goals
    unfold Store.capture
    split
  exacts [h.files, h.files, h.holdings, h.holdings]

theorem close (h : s.Of w) (u : Stream) : (u.close s).Of w := by
  have same : (u.close s).files = s.files ∧ (u.close s).library? = s.library? :=
    close_keeps (P := fun r => r.files = s.files ∧ r.library? = s.library?) (fun _ _ h => h) u ⟨rfl, rfl⟩
  exact ⟨h.keeps.close u, same.1 ▸ h.files, same.2 ▸ h.holdings⟩

end Store.Of

theorem Store.Made.of {s r : Store} (made : s.Made r) (h : s.Of w) (keeps : r.Keeps (Event.Shared w) (.sharing w)) :
    r.Of w := by
  have files : r.files = s.files := by rw [made.only]
  have library : r.library? = s.library? := by rw [made.only]
  exact ⟨keeps, files ▸ h.files, library ▸ h.holdings⟩

variable {k : Nat} {u : Stream} {s r : Store}

theorem Expression.eval_of {x : Expression} {v : Value} (h : s.Of w) (result : x.eval k s = .ok (v, r)) :
    r.Of w ∧ v.From (.sharing w) := by
  obtain ⟨keeps, made⟩ := x.eval_keeps Stock.suits_sharing h.keeps result
  exact ⟨(Expression.eval_made result).of h keeps, made⟩

theorem Attributes.eval_of {as as' : Attributes} (h : s.Of w) (result : as.eval k s = .ok (as', r)) : r.Of w :=
  (Attributes.eval_made result).of h (as.eval_keeps Stock.suits_sharing h.keeps result)

/-! ## Elements with directives -/

/-- What is held while the content of an element is replaced comes from the file. -/
def ContentPhase.Of (w : Sources) (file : Text) : ContentPhase → Prop
  | .start => True
  | .expression p => ∃ d, w.Reads file d ∧ d.position = p
  | .last latest? => ∀ e ∈ latest?, e.Of w file

namespace Stream

/-- An element with directives, all of whose events come from the file. -/
def Of (w : Sources) (file : Text) : Stream → Prop
  | replay q => q.Keeps (Event.Of w file) (.sharing w)
  | shared _ => True
  | append first rest => first.Of w file ∧ rest.Of w file
  | gathering _ items body u => (∀ v ∈ items, v.From (.sharing w)) ∧ (∀ e ∈ body, e.Of w file) ∧ u.Of w file
  | looping _ items body? current? u =>
    (∀ v ∈ items, v.From (.sharing w)) ∧ (∀ body ∈ body?, ∀ e ∈ body, e.Of w file) ∧
      (∀ c ∈ current?, ∀ e ∈ c.2, e.Of w file) ∧ u.Of w file
  | content x phase u => x.Directs (w.Reads file) ∧ phase.Of w file ∧ u.Of w file
  | replaced x u => x.Directs (w.Reads file) ∧ u.Of w file
  | strip _ phase u => (∀ e ∈ phase.held?, e.Of w file) ∧ u.Of w file
  | directed ds read u => (∀ d ∈ ds, d.Of w file) ∧ (∀ e ∈ read, e.Of w file) ∧ u.Of w file
  | ended u | loop _ _ u | attributes _ u => u.Of w file
  | _ => False

end Stream

/-- The step leads to an event and a stream of the file, unless it fails. -/
def Advance.Of (w : Sources) (file : Text) : Advance → Prop
  | yield e u s => e.Of w file ∧ u.Of w file ∧ s.Of w
  | skip u s | done u s => u.Of w file ∧ s.Of w
  | fail .. => True

namespace Stream

theorem of_ofEvents {es : List Event} (h : ∀ e ∈ es, e.Of w file) : (ofEvents es).Of w file := h

theorem of_empty : empty.Of w file := of_ofEvents (by simp)

section

variable {ds : List Directive}

theorem of_drop (u : Stream) (h : s.Of w) (directives : ∀ d ∈ ds, d.Of w file) : (drop ds u s).Of w file :=
  ⟨⟨directives, by simp, of_empty⟩, h.close u⟩

theorem of_proceed (directives : ∀ d ∈ ds, d.Of w file) (stream : u.Of w file) (h : s.Of w) : (proceed ds u s).Of w file :=
  ⟨⟨directives, by simp, stream⟩, h⟩

theorem of_test (wanted : Bool) (x : Expression) (stream : u.Of w file) (h : s.Of w) (directives : ∀ d ∈ ds, d.Of w file) :
    (test k wanted x ds u s).Of w file := by
  unfold test
  split
  · rename_i v r result
    have kept := (Expression.eval_of h result).1
    split
    · exact of_proceed directives stream kept
    · exact of_drop u kept directives
  · trivial

theorem of_complete {d : Directive} {es : List Event} (u : Stream) (h : s.Of w) (first : d.Of w file)
    (directives : ∀ d ∈ ds, d.Of w file) (events : ∀ e ∈ es, e.Of w file) : (complete d ds es u s).Of w file := by
  unfold complete
  split
  · -- the function is bound in the context
    rename_i signature body
    have captured := h.capture body fun e he => (events e he).shared first
    exact of_drop u ((captured.numbered _).withContext (captured.keeps.context.set (by trivial))) directives
  · exact of_drop u (h.capture _ fun e he => (events e he).shared first) directives
  · refine of_proceed directives (of_ofEvents fun e he => ?_) (h.close u)
    exact (List.mem_append.1 he).elim (events e) (events e)

theorem of_applyDirective {d : Directive} (takes : w.TakesPart file) (stream : u.Of w file) (h : s.Of w) (first : d.Of w file)
    (directives : ∀ d ∈ ds, d.Of w file) : (applyDirective k d ds u s).Of w file := by
  unfold applyDirective
  split
  case h_2 | h_7 => exact of_test _ _ stream h directives
  case h_3 => exact of_proceed directives ⟨first, stream⟩ h
  case h_4 => exact of_proceed directives ⟨first, trivial, stream⟩ h
  case h_6 => exact of_proceed directives ⟨by rintro _ ⟨⟩, stream⟩ h
  case h_9 body matched =>
    have closed := h.close u
    have frame : Entries.From (.sharing w) [("select", .function ⟨(u.close s).nextFunction, .select matched⟩)] :=
      .cons (fun e he => (Event.allOf_iff.1 first.2 e he).shared first.1) .nil
    exact of_proceed directives ⟨frame, fun e he => (closed.keeps.body body e he).of takes⟩ (closed.numbered _)
  case h_10 => exact of_complete u h first directives (by simp)
  all_goals exact of_proceed directives stream h

end

theorem of_startLoop (targets : List Text) (items : Expression) (stream : u.Of w file) (h : s.Of w) :
    (startLoop k targets items u s).Of w file := by
  unfold startLoop
  split
  · trivial
  · rename_i v r result
    obtain ⟨kept, made⟩ := Expression.eval_of h result
    split
    · exact ⟨stream, kept⟩
    · split
      · rename_i vs found
        exact ⟨⟨made.items found, by simp, stream⟩, kept⟩
      · trivial

theorem of_stepLoop {targets : List Text} {items : List Value} {body? : Option (List Event)}
    {current? : Option (Nat × List Event)} (stream : (looping targets items body? current? u).Of w file) (h : s.Of w) :
    (stepLoop targets items body? current? u s).Of w file := by
  obtain ⟨made, body, current, stream⟩ := stream
  unfold stepLoop
  split
  · rename_i depth e es
    obtain ⟨first, rest⟩ := List.forall_mem_cons.1 (current _ rfl)
    exact ⟨first, ⟨made, body, by rintro _ ⟨⟩; exact rest, stream⟩, h⟩
  · exact ⟨⟨made, body, by simp, stream⟩, h.releaseFrom _⟩
  · exact ⟨⟨by simp, body, by simp, stream⟩, h⟩
  · rename_i item items
    obtain ⟨first, rest⟩ := List.forall_mem_cons.1 made
    unfold startIteration
    split
    · trivial
    · rename_i frame bound
      have pushed := h.pushFrame (loopFrame_from first bound)
      dsimp only
      split
      · rename_i es
        exact ⟨⟨rest, body, by rintro _ ⟨⟩; exact body es rfl, stream⟩, pushed⟩
      · trivial

theorem of_mergeInto (x : Expression) {first : Event} (event : first.Of w file) (stream : u.Of w file) (h : s.Of w) :
    (mergeInto k x first u s).Of w file := by
  unfold mergeInto
  split
  · split
    · trivial
    · rename_i v r result
      have kept := (Expression.eval_of h result).1
      split
      · split
        · exact ⟨event, stream, kept⟩
        · trivial
      · exact ⟨event, stream, kept⟩
  · exact ⟨event, stream, h⟩

theorem of_stepContent {x : Expression} {phase : ContentPhase} {a : Advance} (directs : x.Directs (w.Reads file))
    (held : phase.Of w file) (h : a.Of w file) : (stepContent x phase a).Of w file := by
  unfold stepContent
  split
  · dsimp only
    split
    · exact ⟨h.1, ⟨directs, h.1.position, h.2.1⟩, h.2.2⟩
    · exact ⟨⟨directs, h.1.position, h.2.1⟩, h.2.2⟩
  · exact ⟨⟨directs, by rintro _ ⟨⟩; exact h.1, h.2.1⟩, h.2.2⟩
  · exact ⟨⟨directs, held, h.2.1⟩, h.2.2⟩
  · exact ⟨⟨directs, held, h.1⟩, h.2⟩
  · exact ⟨held _ rfl, h.1, h.2⟩
  · exact h
  all_goals trivial

theorem of_testStrip (test : Option Expression) (stream : u.Of w file) (h : s.Of w) : (testStrip k test u s).Of w file := by
  have first : (Stream.strip test .first u).Of w file := ⟨by rintro _ ⟨⟩, stream⟩
  unfold testStrip
  split
  · exact ⟨first, h⟩
  · split
    · rename_i result
      refine ⟨?_, (Expression.eval_of h result).1⟩
      split
      · exact first
      · exact stream
    · trivial

theorem of_stepStrip (test : Option Expression) {phase : StripPhase} {a : Advance} (held : ∀ e ∈ phase.held?, e.Of w file)
    (h : a.Of w file) : (stepStrip test phase a).Of w file := by
  unfold stepStrip
  split
  · exact ⟨held _ rfl, ⟨by rintro _ ⟨⟩; exact h.1, h.2.1⟩, h.2.2⟩
  · exact ⟨⟨by rintro _ ⟨⟩; exact h.1, h.2.1⟩, h.2.2⟩
  · exact ⟨⟨by rintro _ ⟨⟩, h.2.1⟩, h.2.2⟩
  · exact ⟨⟨held, h.1⟩, h.2⟩
  · exact h
  all_goals trivial

theorem of_stepReplay {q : Replay} (stream : q.Keeps (Event.Of w file) (.sharing w)) (h : s.Of w) :
    (stepReplay q .replay s).Of w file := by
  obtain ⟨event, replay, context⟩ := stream.next h.keeps.context
  unfold stepReplay
  generalize q.next s.context = next at event replay context
  obtain ⟨e?, q', c⟩ := next
  cases e? with
  | none => exact ⟨replay, h.withContext context⟩
  | some e => exact ⟨event e rfl, replay, h.withContext context⟩

theorem of_stepShared (takes : w.TakesPart file) (id : Nat) (h : s.Of w) : (stepShared id s).Of w file := by
  obtain ⟨event, replay, context⟩ := (h.keeps.replay id).next h.keeps.context
  unfold stepShared
  generalize (s.replay id).next s.context = next at event replay context
  obtain ⟨e?, q, c⟩ := next
  have after := (h.setReplay id replay).withContext context
  cases e? with
  | none => exact ⟨trivial, after⟩
  | some e => exact ⟨(event e rfl).of takes, trivial, after⟩

/-- **What comes from a file stays so with every step.** -/
theorem step_of (takes : w.TakesPart file) (k : Nat) (stream : u.Of w file) (h : s.Of w) : (step k u s).Of w file := by
  induction u generalizing s with
  | replay q => exact of_stepReplay stream h
  | shared id => exact of_stepShared takes id h
  | ended u => exact ⟨stream, h⟩
  | loop targets items u => exact of_startLoop targets items stream h
  | looping targets items body? current? u => exact of_stepLoop stream h
  | append first rest ih =>
    have inner := ih stream.1 h
    simp only [step]
    cases result : step k first s <;> rw [result] at inner
    · exact ⟨inner.1, ⟨inner.2.1, stream.2⟩, inner.2.2⟩
    · exact ⟨⟨inner.1, stream.2⟩, inner.2⟩
    · exact ⟨stream.2, inner.2.close _⟩
    · trivial
  | gathering targets items body u ih =>
    obtain ⟨made, events, stream⟩ := stream
    have inner := ih stream h
    simp only [step]
    cases result : step k u s <;> rw [result] at inner
    · exact ⟨⟨made, List.forall_mem_cons.2 ⟨inner.1, events⟩, inner.2.1⟩, inner.2.2⟩
    · exact ⟨⟨made, events, inner.1⟩, inner.2⟩
    · exact ⟨⟨made, by rintro _ ⟨⟩ e he; exact events e (List.mem_reverse.1 he), by simp, inner.1⟩, inner.2⟩
    · trivial
  | attributes x u ih =>
    have inner := ih stream h
    simp only [step]
    cases result : step k u s <;> rw [result] at inner
    · exact of_mergeInto x inner.1 inner.2.1 inner.2.2
    · exact inner
    · exact inner
    · trivial
  | content x phase u ih =>
    obtain ⟨directs, held, stream⟩ := stream
    cases phase with
    | expression p => exact ⟨.inr ⟨held, directs⟩, ⟨directs, by rintro _ ⟨⟩, stream⟩, h⟩
    | start | last => exact of_stepContent directs held (ih stream h)
  | replaced x u ih =>
    obtain ⟨directs, stream⟩ := stream
    have inner := ih stream h
    simp only [step]
    cases result : step k u s <;> rw [result] at inner
    · exact ⟨inner.1.expression directs, inner.2⟩
    · exact ⟨⟨directs, inner.1⟩, inner.2⟩
    · exact inner
    · trivial
  | strip test phase u ih =>
    obtain ⟨held, stream⟩ := stream
    cases phase with
    | untested => exact of_testStrip test stream h
    | first | second | holding => exact of_stepStrip test held (ih stream h)
  | directed ds read u ih =>
    obtain ⟨directives, events, stream⟩ := stream
    cases ds with
    | nil => exact ⟨stream, h⟩
    | cons d ds =>
      obtain ⟨first, rest⟩ := List.forall_mem_cons.1 directives
      have inner := ih stream h
      simp only [step]
      split
      · cases result : step k u s <;> rw [result] at inner
        · exact ⟨⟨directives, List.forall_mem_cons.2 ⟨inner.1, events⟩, inner.2.1⟩, inner.2.2⟩
        · exact ⟨⟨directives, events, inner.1⟩, inner.2⟩
        · exact of_complete _ inner.2 first rest fun e he => events e (List.mem_reverse.1 he)
        · trivial
      · exact of_applyDirective takes stream h first rest
  | _ => exact stream.elim

/-- No event is evaluated before the directives of its element have been applied. -/
theorem failure_of {file' : Text} (stream : u.Of w file) : u.failure? k file' s = none := by
  induction u generalizing s with
  | replay | shared | ended | loop | looping => rfl
  | append first rest ih => exact ih stream.1
  | gathering targets items body u ih => exact ih stream.2.2
  | attributes x u ih => exact ih stream
  | replaced x u ih => exact ih stream.2
  | content x phase u ih =>
    cases phase with
    | expression => rfl
    | start | last => exact ih stream.2.2
  | strip test phase u ih =>
    cases phase with
    | untested => rfl
    | first | second | holding => exact ih stream.2
  | directed ds read u ih =>
    cases ds with
    | nil => rfl
    | cons d ds =>
      simp only [failure?]
      rw [ih stream.2.2]
      split <;> rfl
  | _ => exact stream.elim

end Stream

end Stencil
