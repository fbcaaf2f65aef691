import Mathlib.Data.List.TakeWhile
import Stencil.Proofs.Document.Joined
import Stencil.Proofs.Document.Script

/-!
# The events of a script

A reader gives each callback its events at the position where the callback before it left off, and joins the
pieces of character data that follow each other (`run_eq`). For the forest of a script these are the events of
its items (`eventsFrom_reportsOf`), so that a script without errors is read to those events, with their texts
joined (`read_script`).
-/

namespace Stencil

namespace Report

/-- The events of a callback, where each piece of character data is a text of its own. -/
def events (declared : List (List Text)) : Report → List Event
  | ⟨p, .startElement _ name namespaces raw⟩ =>
    namespaces.map (fun n => .startNamespace p (Text.ofRaw n.pre?) (Text.ofRaw n.uri?))
      ++ [.startTag p name.toQName (Document.attributes raw)]
  | ⟨p, .endElement _ name⟩ => .endTag p name.toQName :: (declared.headD []).reverse.map (.endNamespace p)
  | ⟨p, .characters _ t⟩ => [.text p t]
  | ⟨p, .comment _ text?⟩ => [.comment p (Text.ofRaw text?)]
  | ⟨p, .instruction _ target? data?⟩ => [.instruction p (Text.ofRaw target?) (Text.ofRaw data?)]
  | ⟨p, .doctype _ name? publicId? systemId?⟩ =>
    [.doctype p (Text.ofRaw name?) (Text.ofRaw publicId?) (Text.ofRaw systemId?)]
  | ⟨_, .error ..⟩ | ⟨_, .fatal ..⟩ | ⟨_, .malformed⟩ => []

/-- The prefixes that the open elements declare, after a callback. -/
def declare (declared : List (List Text)) (r : Report) : List (List Text) :=
  match r.callback with
  | .startElement _ _ namespaces _ => namespaces.map (fun n => Text.ofRaw n.pre?) :: declared
  | .endElement .. => declared.tail
  | _ => declared

/-- The events of a callback are where it starts. Only character data has texts. -/
theorem of_mem_events {declared : List (List Text)} {r : Report} {e : Event} (h : e ∈ r.events declared) :
    e.position = r.start ∧ ((∀ place t, r.callback ≠ .characters place t) → e.text? = none) := by
  obtain ⟨p, c⟩ := r
  cases c with
  | startElement place name namespaces raw =>
    rcases List.mem_append.1 h with h | h
    · obtain ⟨n, -, rfl⟩ := List.mem_map.1 h
      exact ⟨rfl, fun _ => rfl⟩
    · rw [List.mem_singleton.1 h]
      exact ⟨rfl, fun _ => rfl⟩
  | endElement place name =>
    rcases List.mem_cons.1 h with rfl | h
    · exact ⟨rfl, fun _ => rfl⟩
    · obtain ⟨n, -, rfl⟩ := List.mem_map.1 h
      exact ⟨rfl, fun _ => rfl⟩
  | characters place t =>
    rw [List.mem_singleton.1 h]
    exact ⟨rfl, fun other => absurd rfl (other place t)⟩
  | comment | instruction | doctype =>
    rw [List.mem_singleton.1 h]
    exact ⟨rfl, fun _ => rfl⟩
  | error | fatal | malformed => cases h

end Report

/-- The events of callbacks inside elements that declare some prefixes. -/
def eventsFrom (declared : List (List Text)) : List Report → List Event
  | [] => []
  | r :: rs => r.events declared ++ eventsFrom (r.declare declared) rs

namespace Callback

/-- What is kept of an error: its message, cut and trimmed, and its position. -/
def failure? : Callback → Option (Text × Position)
  | error place message | fatal place message =>
    some (Text.trimWhite ((Text.untilNul message).take Document.State.longestMessage), place.toPosition)
  | _ => none

/-- After the callback the document counts as malformed. -/
def spoils : Callback → Bool
  | fatal .. | malformed => true
  | _ => false

theorem quiet {c : Callback} (noError : c.isError = false) : c.failure? = none ∧ c.spoils = false := by
  cases c with
  | error | fatal | malformed => cases noError
  | _ => exact ⟨rfl, rfl⟩

end Callback

namespace Document

/-! ## What a reader does at a callback -/

theorem State.emit_eq (s : State) (place : Place) (make : Position → List Event) :
    s.emit place make = (dueText s.pendingText s.pendingPosition ++ make s.last,
      { s with pendingText := [], last := place.toPosition }) := by
  obtain ⟨last, pendingText, pendingPosition, declared, error?, wellFormed⟩ := s
  cases pendingText <;> rfl

theorem State.record_eq (s : State) (place : Place) (message : Text) :
    s.record place message = { s with error? := s.error?.or (Callback.error place message).failure? } := by
  obtain ⟨last, pendingText, pendingPosition, declared, error?, wellFormed⟩ := s
  cases error? <;> rfl

/-- The events of a callback end the text so far, or go on with it. -/
theorem step_events (s : State) (c : Callback) (es : List Event) :
    (step s c).1 ++ joinFrom (step s c).2.pendingText (step s c).2.pendingPosition es =
      joinFrom s.pendingText s.pendingPosition (Report.events s.declared ⟨s.last, c⟩ ++ es) := by
  cases c with
  | startElement | endElement | comment | instruction | doctype =>
    rw [joinFrom_others (fun e he => (Report.of_mem_events he).2 (by simp)) _ _ _ (by simp [Report.events])]
    simp [step, State.emit_eq, Report.events]
  | characters => rfl
  | error | fatal => simp [step, State.record_eq, Report.events]
  | malformed => rfl

theorem step_last (s : State) (c : Callback) : (step s c).2.last = c.recorded?.getD s.last := by
  cases c with
  | error | fatal => simp [step, State.record_eq, Callback.recorded?]
  | malformed | characters => rfl
  | _ => simp [step, State.emit_eq, Callback.recorded?]

theorem step_declared (s : State) (c : Callback) : (step s c).2.declared = Report.declare s.declared ⟨s.last, c⟩ := by
  cases c with
  | error | fatal => simp [step, State.record_eq, Report.declare]
  | malformed | characters => rfl
  | _ => simp [step, State.emit_eq, Report.declare]

/-- The first error stays. -/
theorem step_error (s : State) (c : Callback) : (step s c).2.error? = s.error?.or c.failure? := by
  cases c with
  | error | fatal => simp [step, State.record_eq, Callback.failure?]
  | malformed | characters => simp [step, Callback.failure?]
  | _ => simp [step, State.emit_eq, Callback.failure?]

theorem step_wellFormed (s : State) (c : Callback) : (step s c).2.wellFormed = (s.wellFormed && !c.spoils) := by
  cases c with
  | error | fatal => simp [step, State.record_eq, Callback.spoils]
  | malformed | characters => simp [step, Callback.spoils]
  | _ => simp [step, State.emit_eq, Callback.spoils]

/-- The events of a document are those of its callbacks, with the texts joined. -/
theorem run_eq (s : State) (document : List Callback) :
    (run s document).1 = joinFrom s.pendingText s.pendingPosition (eventsFrom s.declared (reports s.last document)) := by
  -- the text so far is part of the state, so the induction is for every state
  induction document generalizing s with
  | nil =>
    change (s.flush).1 = dueText s.pendingText s.pendingPosition
    unfold State.flush dueText
    split <;> rfl
  | cons c cs ih =>
    change (step s c).1 ++ (run (step s c).2 cs).1 = _
    rw [ih, step_last, step_declared, step_events]
    rfl

end Document

/-! ## The events of items -/

/-- A text without NUL is read to its end. -/
theorem Text.ofRaw_eq {t? : Option Text} (h : ∀ t ∈ t?.toList, (0 : Byte) ∉ t) : Text.ofRaw t? = t?.getD [] := by
  cases t? with
  | none => rfl
  | some t =>
    refine List.takeWhile_eq_self_iff.2 fun c hc => ?_
    have noNul := h t (by simp)
    simp only [bne_iff_ne, ne_eq]
    rintro rfl
    exact noNul hc

theorem RawName.toQName_eq {n : RawName} (h : ∀ t ∈ n.texts, (0 : Byte) ∉ t) : n.toQName = n.given := by
  simp only [texts, List.mem_cons, List.mem_append, or_imp, forall_and, forall_eq] at h
  obtain ⟨base, pre, uri⟩ := h
  have whole : Text.ofRaw (some n.base) = n.base := Text.ofRaw_eq (by simpa using base)
  simp only [toQName, given, Text.ofRaw_eq pre, Text.ofRaw_eq uri]
  rw [Text.ofRaw] at whole
  rw [whole]

theorem Document.attributes_eq {raw : List RawAttribute} (h : ∀ a ∈ raw, ∀ t ∈ a.name.texts, (0 : Byte) ∉ t) :
    Document.attributes raw = givenAttributes raw :=
  List.foldl_ext _ _ _ fun as a ha => by rw [RawName.toQName_eq (h a ha)]

/-- A start tag without NULs is read as it is given. -/
theorem Report.events_start (declared : List (List Text)) (p : Position) {place : Place} {name : RawName}
    {namespaces : List RawNamespace} {raw : List RawAttribute}
    (noNul : ∀ t ∈ (Callback.startElement place name namespaces raw).texts, (0 : Byte) ∉ t) :
    Report.events declared ⟨p, .startElement place name namespaces raw⟩ =
      namespaces.map (fun n => .startNamespace p (n.pre?.getD []) (n.uri?.getD []))
        ++ [.startTag p name.given (givenAttributes raw)] := by
  simp only [Callback.texts, List.mem_append, List.mem_flatMap, or_imp, forall_and, forall_exists_index, and_imp] at noNul
  obtain ⟨⟨tag, declarations⟩, attributes⟩ := noNul
  have attributes : ∀ a ∈ raw, ∀ t ∈ a.name.texts, (0 : Byte) ∉ t := fun a ha t ht => attributes t a ha ht
  rw [Report.events, RawName.toQName_eq tag, Document.attributes_eq attributes]
  congr 1
  refine List.map_congr_left fun n hn => ?_
  rw [Text.ofRaw_eq fun t ht => declarations t n hn (List.mem_append_left _ ht),
    Text.ofRaw_eq fun t ht => declarations t n hn (List.mem_append_right _ ht)]

theorem Report.declare_start (declared : List (List Text)) (p : Position) {place : Place} {name : RawName}
    {namespaces : List RawNamespace} {raw : List RawAttribute}
    (noNul : ∀ t ∈ (Callback.startElement place name namespaces raw).texts, (0 : Byte) ∉ t) :
    Report.declare declared ⟨p, .startElement place name namespaces raw⟩ =
      namespaces.map (fun n => n.pre?.getD []) :: declared := by
  have prefixes : namespaces.map (fun n => Text.ofRaw n.pre?) = namespaces.map (fun n => n.pre?.getD []) := by
    refine List.map_congr_left fun n hn => Text.ofRaw_eq fun t ht => noNul t ?_
    exact List.mem_append_left _ (List.mem_append_right _ (List.mem_flatMap.2 ⟨n, hn, List.mem_append_left _ ht⟩))
  exact congrArg (· :: declared) prefixes

namespace Item

mutual

/-- The callbacks of an item have the events of the item, and leave the declared prefixes as they were. -/
theorem eventsFrom_reports (i : Item) (plain : ∀ r ∈ i.reports, r.callback.Plain) (declared : List (List Text))
    (rs : List Report) : eventsFrom declared (i.reports ++ rs) = i.events ++ eventsFrom declared rs := by
  cases i with
  | element p place name namespaces raw children q endPlace endName =>
    simp only [reports, List.forall_mem_cons, List.forall_mem_append] at plain
    obtain ⟨opened, inside, closed, -⟩ := plain
    have tag := RawName.toQName_eq closed.noNul
    -- the prefixes that the start tag puts on the stack are on top again at the end tag
    simp only [reports, List.cons_append, eventsFrom, Report.events_start _ _ opened.noNul,
      Report.declare_start _ _ opened.noNul, List.append_assoc, eventsFrom_reportsOf children inside, List.nil_append]
    simp [Report.events, Report.declare, tag, events, List.map_reverse, Function.comp_def]
  | characters p place t => rfl
  | comment p place text? =>
    have noNul := (plain _ (List.mem_singleton_self _)).noNul
    simp [reports, eventsFrom, Report.events, Report.declare, events, Text.ofRaw_eq noNul]
  | instruction p place target? data? =>
    have noNul := (plain _ (List.mem_singleton_self _)).noNul
    simp [reports, eventsFrom, Report.events, Report.declare, events, Text.ofRaw_eq noNul]
  | doctype p place name? publicId? systemId? =>
    have noNul := (plain _ (List.mem_singleton_self _)).noNul
    simp only [Callback.texts, List.forall_mem_append] at noNul
    obtain ⟨⟨name, publicId⟩, systemId⟩ := noNul
    simp [reports, eventsFrom, Report.events, Report.declare, events, Text.ofRaw_eq name, Text.ofRaw_eq publicId,
      Text.ofRaw_eq systemId]

/-- So have those of a forest. -/
theorem eventsFrom_reportsOf (is : List Item) (plain : ∀ r ∈ reportsOf is, r.callback.Plain)
    (declared : List (List Text)) (rs : List Report) :
    eventsFrom declared (reportsOf is ++ rs) = eventsOf is ++ eventsFrom declared rs := by
  cases is with
  | nil => rfl
  | cons i is =>
    simp only [reportsOf, List.forall_mem_append] at plain
    rw [reportsOf, eventsOf, List.append_assoc, eventsFrom_reports i plain.1, eventsFrom_reportsOf is plain.2,
      List.append_assoc]

end

end Item

/-! ## Positions -/

namespace Position

/-- The line counts before the column. -/
def NotAfter (p q : Position) : Prop := p.line < q.line ∨ p.line = q.line ∧ p.column ≤ q.column

instance (p q : Position) : Decidable (p.NotAfter q) := inferInstanceAs (Decidable (_ ∨ _ ∧ _))

theorem notAfter_refl (p : Position) : p.NotAfter p := .inr ⟨rfl, UInt32.le_refl _⟩

theorem NotAfter.trans {p q r : Position} (first : p.NotAfter q) (second : q.NotAfter r) : p.NotAfter r := by
  unfold NotAfter at *
  grind

instance : Trans NotAfter NotAfter NotAfter := ⟨NotAfter.trans⟩

end Position

/-- Where the positions that are recorded don't go backwards, the starts of the callbacks don't. -/
theorem starts_in_order {last : Position} {script : List Callback}
    (forward : (last :: script.filterMap Callback.recorded?).Pairwise Position.NotAfter) :
    (∀ r ∈ reports last script, last.NotAfter r.start) ∧
      (reports last script).Pairwise fun r s => r.start.NotAfter s.start := by
  induction script generalizing last with
  | nil => exact ⟨by simp [reports], .nil⟩
  | cons c cs ih =>
    have next : last.NotAfter (c.recorded?.getD last) ∧
        (c.recorded?.getD last :: cs.filterMap Callback.recorded?).Pairwise Position.NotAfter := by
      cases recorded : c.recorded? with
      | none => exact ⟨last.notAfter_refl, by simpa [recorded] using forward⟩
      | some p =>
        simp only [List.filterMap_cons, recorded, List.pairwise_cons (a := last), List.forall_mem_cons] at forward
        exact ⟨forward.1.1, forward.2⟩
    obtain ⟨after, pairwise⟩ := ih next.2
    have rest : ∀ r ∈ reports (c.recorded?.getD last) cs, last.NotAfter r.start :=
      fun r hr => next.1.trans (after r hr)
    exact ⟨List.forall_mem_cons.2 ⟨last.notAfter_refl, rest⟩, List.pairwise_cons.2 ⟨rest, pairwise⟩⟩

theorem start_of_mem_eventsFrom {declared : List (List Text)} {rs : List Report} {e : Event}
    (h : e ∈ eventsFrom declared rs) : ∃ r ∈ rs, e.position = r.start := by
  induction rs generalizing declared with
  | nil => cases h
  | cons r rs ih =>
    rcases List.mem_append.1 h with h | h
    · exact ⟨r, List.mem_cons_self, (Report.of_mem_events h).1⟩
    · obtain ⟨s, hs, there⟩ := ih h
      exact ⟨s, List.mem_cons_of_mem _ hs, there⟩

/-- Then neither do the positions of the events. -/
theorem positions_in_order (declared : List (List Text)) {rs : List Report}
    (forward : rs.Pairwise fun r s => r.start.NotAfter s.start) :
    ((eventsFrom declared rs).map Event.position).Pairwise Position.NotAfter := by
  rw [List.pairwise_map]
  induction rs generalizing declared with
  | nil => exact .nil
  | cons r rs ih =>
    obtain ⟨first, rest⟩ := List.pairwise_cons.1 forward
    refine List.pairwise_append.2 ⟨?_, ih _ rest, fun e he f hf => ?_⟩
    · refine List.pairwise_of_forall_mem_list fun e he f hf => ?_
      rw [(Report.of_mem_events he).1, (Report.of_mem_events hf).1]
      exact r.start.notAfter_refl
    · obtain ⟨s, hs, there⟩ := start_of_mem_eventsFrom hf
      rw [(Report.of_mem_events he).1, there]
      exact first s hs

/-! ## Reading a script -/

namespace Document

/-- The error of a document is the first one that was reported. -/
theorem run_error (s : State) (document : List Callback) :
    (run s document).2.error? = s.error?.or (document.findSome? Callback.failure?) := by
  induction document generalizing s with
  | nil =>
    change (s.flush).2.error? = _
    unfold State.flush
    split <;> simp
  | cons c cs ih =>
    change (run (step s c).2 cs).2.error? = _
    rw [ih, step_error, Option.or_assoc]
    cases h : c.failure? <;> simp [h]

theorem run_wellFormed (s : State) (document : List Callback) :
    (run s document).2.wellFormed = (s.wellFormed && document.all (!·.spoils)) := by
  induction document generalizing s with
  | nil =>
    change (s.flush).2.wellFormed = _
    unfold State.flush
    split <;> simp
  | cons c cs ih =>
    change (run (step s c).2 cs).2.wellFormed = _
    rw [ih, step_wellFormed, Bool.and_assoc, List.all_cons]

/-- A document is refused for the first error that was reported; if there is none, for being malformed, and then the
position is that of an error in an earlier document. -/
theorem Reader.read_eq (r : Reader) (document : List Callback) :
    r.read document =
      match document.findSome? Callback.failure? with
      | some (message, position) =>
        (.error ⟨if message.isEmpty then notWellFormed else message, position⟩, ⟨position⟩)
      | none =>
        if document.all (!·.spoils) then (.ok (joinTexts (eventsFrom [] (reports ⟨1, 0⟩ document))), r)
        else (.error ⟨notWellFormed, r.errorPosition⟩, r) := by
  have events := run_eq .initial document
  rw [joinFrom_eq] at events
  simp only [Reader.read, run_error, run_wellFormed, events]
  rfl

theorem read_noError (r : Reader) {document : List Callback} (noError : ∀ c ∈ document, c.isError = false) :
    (r.read document).1 = .ok (joinTexts (eventsFrom [] (reports ⟨1, 0⟩ document))) := by
  have noFailure : document.findSome? Callback.failure? = none :=
    List.findSome?_eq_none_iff.2 fun c hc => (Callback.quiet (noError c hc)).1
  have unspoiled : document.all (!·.spoils) = true :=
    List.all_eq_true.2 fun c hc => by simp [(Callback.quiet (noError c hc)).2]
  simp [Reader.read_eq, noFailure, unspoiled]

/-- A script without errors, in which the callbacks for start and end tags pair up, is that of a forest of items. It
is read to the events of these, where every longest run of texts is one text, at the position of its first piece
that is not empty, or none if all its pieces are empty. If no position that is recorded, from line 1 and column 0 on,
is before the one recorded before it, then no event is before an earlier one. -/
theorem read_script (r : Reader) {script : List Callback} (plain : ∀ c ∈ script, c.Plain)
    (balanced : script.foldlM (bracketDepth Callback.isStart Callback.isEnd) 0 = some 0) :
    (∃ items, Item.reportsOf items = reports ⟨1, 0⟩ script) ∧
      ∀ items, Item.reportsOf items = reports ⟨1, 0⟩ script →
        (r.read script).1 = .ok (joinTexts (Item.eventsOf items)) ∧
          ((⟨1, 0⟩ :: script.filterMap Callback.recorded?).IsChain Position.NotAfter →
            ((joinTexts (Item.eventsOf items)).map Event.position).Pairwise Position.NotAfter) := by
  have noError : ∀ c ∈ script, c.isError = false := fun c hc => (plain c hc).noError
  refine ⟨exists_items ⟨1, 0⟩ noError balanced, fun items forest => ?_⟩
  have plain' : ∀ r ∈ Item.reportsOf items, r.callback.Plain := by
    rw [forest]
    intro r hr
    exact plain _ (map_callback_reports ⟨1, 0⟩ script ▸ List.mem_map_of_mem hr)
  have events : eventsFrom [] (reports ⟨1, 0⟩ script) = Item.eventsOf items := by
    have whole := Item.eventsFrom_reportsOf items plain' [] []
    simpa [forest, eventsFrom] using whole
  refine ⟨by rw [read_noError r noError, events], fun forward => ?_⟩
  have inOrder := positions_in_order [] (starts_in_order forward.pairwise).2
  rw [events] at inOrder
  exact inOrder.sublist (positions_joinTexts _)

/-- Two elements that declare namespaces, and character data in pieces: empty ones, a run, and white space after a
comment. -/
theorem read_script_nested :
    let a : RawName := ⟨"a", some "x", some "u"⟩
    let b : RawName := ⟨"b", none, some "d"⟩
    let script : List Callback :=
      [.startElement ⟨1, 30⟩ a [⟨some "x", some "u"⟩, ⟨none, some "d"⟩] [], .characters ⟨1, 30⟩ "", .characters ⟨1, 32⟩ "s",
        .characters ⟨1, 40⟩ "t", .startElement ⟨2, 5⟩ b [⟨some "y", some "v"⟩] [], .endElement ⟨2, 9⟩ b,
        .characters ⟨2, 9⟩ "", .comment ⟨2, 20⟩ (some "c"), .characters ⟨2, 21⟩ " ", .endElement ⟨2, 24⟩ a]
    let events : List Event :=
      [.startNamespace ⟨1, 0⟩ "x" "u", .startNamespace ⟨1, 0⟩ "" "d", .startTag ⟨1, 0⟩ ⟨"u", "x", "a"⟩ [],
        .text ⟨1, 29⟩ "st", .startNamespace ⟨1, 39⟩ "y" "v", .startTag ⟨1, 39⟩ ⟨"d", "", "b"⟩ [],
        .endTag ⟨2, 4⟩ ⟨"d", "", "b"⟩, .endNamespace ⟨2, 4⟩ "y", .comment ⟨2, 8⟩ "c", .text ⟨2, 19⟩ " ",
        .endTag ⟨2, 20⟩ ⟨"u", "x", "a"⟩, .endNamespace ⟨2, 20⟩ "", .endNamespace ⟨2, 20⟩ "x"]
    (∀ c ∈ script, c.Plain) ∧ script.foldlM (bracketDepth Callback.isStart Callback.isEnd) 0 = some 0 ∧
      (Reader.fresh.read script).1 = .ok events ∧ (events.map Event.position).Pairwise Position.NotAfter := by
  intro a b script events
  have plain : ∀ c ∈ script, c.Plain := by decide
  have balanced : script.foldlM (bracketDepth Callback.isStart Callback.isEnd) 0 = some 0 := by decide
  obtain ⟨read, inOrder⟩ := (read_script Reader.fresh plain balanced).2
    [.element ⟨1, 0⟩ ⟨1, 30⟩ a [⟨some "x", some "u"⟩, ⟨none, some "d"⟩] []
      [.characters ⟨1, 29⟩ ⟨1, 30⟩ "", .characters ⟨1, 29⟩ ⟨1, 32⟩ "s", .characters ⟨1, 31⟩ ⟨1, 40⟩ "t",
        .element ⟨1, 39⟩ ⟨2, 5⟩ b [⟨some "y", some "v"⟩] [] [] ⟨2, 4⟩ ⟨2, 9⟩ b, .characters ⟨2, 8⟩ ⟨2, 9⟩ "",
        .comment ⟨2, 8⟩ ⟨2, 20⟩ (some "c"), .characters ⟨2, 19⟩ ⟨2, 21⟩ " "]
      ⟨2, 20⟩ ⟨2, 24⟩ a] rfl
  exact ⟨plain, balanced, read, inOrder (by decide)⟩

end Document

end Stencil
