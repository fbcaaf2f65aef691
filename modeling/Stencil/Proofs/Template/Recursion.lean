import Stencil.Proofs.Template.Structured

/-!
# Templates are evaluated recursively

The expansion of a plain document delivers what the recursive evaluation of its compiled events comes
to: the same events, and the same failure but for the place it is reported at
(`Template.expanded_evaluates`). So the streams of the expansion, with all their frames, are no more
than a way to compute `Event.meaningOf` event by event.
-/

namespace Stencil

namespace Stream

variable {k : Nat} {t : Template} {s : Store}

mutual

/-- An event comes out with its meaning. -/
theorem sound_event (plain : t.expansionFilters = [.evaluate]) (e : Event) (h : e.Structured) :
    Sound k t ⟨e, e.meaning k⟩ := by
  cases e with
  | sub p ds es =>
    have element : Sound k t ⟨.sub p ds ((Event.pieces k es).map (·.event)), (Event.sub p ds es).meaning k⟩ :=
      sound_sub plain p h.1 (sound_events plain es h.2)
    rwa [Event.map_event_pieces] at element
  | _ => exact sound_leaf _ (by simp)

theorem sound_events (plain : t.expansionFilters = [.evaluate]) (es : List Event) (h : Event.AllStructured es) :
    ∀ p ∈ Event.pieces k es, Sound k t p := by
  cases es with
  | nil => simp [Event.pieces]
  | cons e es => exact List.forall_mem_cons.2 ⟨sound_event plain e h.1, sound_events plain es h.2⟩

end

end Stream

/-- Only the lack of fuel is, without its place, the lack of fuel. -/
theorem Stop.eq_outOfFuel_of_unplaced {stop? : Option Stop}
    (h : stop?.map Stop.unplaced = some .outOfFuel) : stop? = some .outOfFuel := by
  cases stop? with
  | none => cases h
  | some why =>
    cases why with
    | outOfFuel => rfl
    | fault f => cases h

namespace Outcome

/-- Why there are no more events, if the evaluation has failed. -/
def stop? (o : Outcome) : Option Stop :=
  match o.result with
  | .ok _ => none
  | .error why => some why

end Outcome

/-- The events are the same, and so is the failure but for the place it is reported at. -/
def Collected.Matches (c : Collected) (o : Outcome) : Prop :=
  c.events = o.events ∧ c.stop?.map Stop.unplaced = o.stop?.map Stop.unplaced

namespace Stream

variable {k : Nat} {t : Template} {s : Store}

/-- The expansion makes a run that comes to what the recursive evaluation comes to. -/
theorem completes_expanded (plain : t.expansionFilters = [.evaluate]) (structured : ∀ e ∈ t.events, e.Structured)
    (streamless : s.context.From .streamless) (k : Nat) :
    ∃ stop? v r, stop?.map Stop.unplaced = (Event.meaningOf k t.events s).stop?.map Stop.unplaced ∧
      Completes k (.expanded t .zero t.source) s (Event.meaningOf k t.events s).events stop? v r := by
  have source : Stream.expanded t .zero t.source = carry t .zero (.ofEvents t.events) [] := by
    simp only [Template.source, plain]
    rfl
  have reading : Reading k (fun v => ∀ r, Finishes k v r r) (.ofEvents t.events)
      ((Event.pieces k t.events).map (·.event)) := by
    rw [Event.map_event_pieces]
    exact reading_of_delivers (delivers_ofEvents _)
  have follows : Follows k (carry t .zero (.ofEvents t.events) []) s s.context (Event.meaningOf k t.events s) _ :=
    follows_pieces .zero [] (sound_events plain t.events (Event.allStructured_iff.2 structured)) reading streamless
  rw [source]
  generalize Event.meaningOf k t.events s = o at follows
  obtain ⟨es, result⟩ := o
  cases result with
  | error why =>
    obtain ⟨v, r, why', w, q, run, fails, same⟩ := follows
    exact ⟨some why', w, q, congrArg some same, v, r, run, fails⟩
  | ok q =>
    obtain ⟨-, _, ⟨last, v, finishes, rfl⟩, run⟩ := follows
    obtain ⟨v', q', w, run', done, inert⟩ := finishes q
    have whole := run.trans (carry_run run')
    rw [List.append_nil] at whole
    refine ⟨none, .empty, q, rfl, _, _, whole, ?_⟩
    simp only [carry, nest, step, done, inert q, stepExpanded, final]
    rfl

end Stream

namespace Template

/-- **The expansion of a template is its recursive evaluation**, for a plain document in a context without
streams. If the evaluation comes to an end, so does the expansion, given enough fuel, and with the same
events and the same failure. If the expansion comes to an end, so does the evaluation. -/
theorem expanded_evaluates {target : Compile.Target} {es : List Event} (document : Compile.PlainDocument es)
    {t : Template} (compiled : Compile.template target es = .ok t) {s : Store}
    (streamless : s.context.From .streamless) :
    (∀ k, (Event.meaningOf k t.events s).stop? ≠ some .outOfFuel → ∃ n, ∀ fuel, n ≤ fuel →
      ((Stream.expanded t .zero t.source).collect fuel none s).Matches (Event.meaningOf k t.events s)) ∧
    ∀ fuel, ((Stream.expanded t .zero t.source).collect fuel none s).stop? ≠ some .outOfFuel →
      ((Stream.expanded t .zero t.source).collect fuel none s).Matches (Event.meaningOf fuel t.events s) := by
  obtain ⟨plain, structured⟩ := Compile.structured_of_template document compiled
  constructor
  · intro k enough
    obtain ⟨stop?, v, r, same, completes⟩ := Stream.completes_expanded plain structured streamless k
    have enough' : stop? ≠ some .outOfFuel := by
      rintro rfl
      exact enough (Stop.eq_outOfFuel_of_unplaced same.symm)
    obtain ⟨n, collects⟩ := Stream.collect_of_completes enough' completes
    exact ⟨n, fun fuel large => by rw [collects fuel large]; exact ⟨rfl, same⟩⟩
  · intro fuel enough
    obtain ⟨stop?, v, r, same, completes⟩ := Stream.completes_expanded plain structured streamless fuel
    obtain ⟨events, stop, -, -⟩ := (Stream.completes_of_collect enough).unique completes
    exact ⟨events, stop ▸ same⟩

/-- A list whose items come from a loop, all but the tags of each. -/
def loopDocument : List Event :=
  let directive (base : Text) : QName := ⟨directiveNamespace, "py", base⟩
  [.startTag ⟨1, 0⟩ (.plain "ul") [⟨directive "if", [.literal "xs"]⟩],
    .startTag ⟨1, 9⟩ (.plain "li") [⟨directive "for", [.literal "x in xs"]⟩, ⟨directive "strip", [.literal ""]⟩],
    .text ⟨1, 20⟩ "$x", .endTag ⟨1, 30⟩ (.plain "li"), .endTag ⟨1, 39⟩ (.plain "ul")]

def loopTemplate : Template :=
  ⟨0, "t.xml", [.sub ⟨1, 0⟩ [.condition ⟨"xs"⟩] [.startTag ⟨1, 0⟩ (.plain "ul") [],
    .sub ⟨1, 9⟩ [.loop ["x"] ⟨"xs"⟩, .strip none]
      [.startTag ⟨1, 9⟩ (.plain "li") [], .expression ⟨1, 20⟩ ⟨"x"⟩, .endTag ⟨1, 30⟩ (.plain "li")],
    .endTag ⟨1, 39⟩ (.plain "ul")]], [.evaluate], [], [.tidy]⟩

theorem expanded_evaluates_loop :
    let s : Store := .ofContext (.ofBase [("xs", .list [.int 1, .int 2])]) (.empty [])
    Compile.PlainDocument loopDocument ∧ Compile.template ⟨0, "t.xml", .empty⟩ loopDocument = .ok loopTemplate ∧
      s.context.From .streamless ∧ ∃ n, ∀ fuel, n ≤ fuel →
        ((Stream.expanded loopTemplate .zero loopTemplate.source).collect fuel none s).events.map Event.kind =
          ["START", "TEXT", "TEXT", "END"] := by
  intro s
  have tags : ∀ p name as, .startTag p name as ∈ loopDocument → Attributes.Distinct as ∧
      ∀ a ∈ as, Compile.isDirective a = true → ∃ n ∈ DirectiveName.plain, a.name.base = n.spelling := by
    intro p name as h
    simp only [loopDocument, List.mem_cons, List.not_mem_nil, or_false, reduceCtorEq, Event.startTag.injEq] at h
    rcases h with ⟨-, -, rfl⟩ | ⟨-, -, rfl⟩
    · exact ⟨List.pairwise_singleton _ _, by decide⟩
    · exact ⟨List.pairwise_pair.2 (by decide), by decide⟩
  have document : Compile.PlainDocument loopDocument :=
    ⟨⟨by decide, by decide⟩, fun p name as h => (tags p name as h).1, fun p name as h => (tags p name as h).2⟩
  have compiled : Compile.template ⟨0, "t.xml", .empty⟩ loopDocument = .ok loopTemplate := rfl
  have streamless : s.context.From .streamless := by
    intro f hf e he
    simp only [s, Store.ofContext, Context.ofBase, Context.frames, List.nil_append, List.mem_singleton] at hf
    subst hf
    rw [List.mem_singleton.1 he]
    exact ⟨trivial, trivial, trivial⟩
  refine ⟨document, compiled, streamless, ?_⟩
  have ends : (Event.meaningOf 9 loopTemplate.events s).stop?.isNone = true := by decide +kernel
  obtain ⟨n, agrees⟩ := (expanded_evaluates document compiled streamless).1 9 fun same => by
    rw [same] at ends
    cases ends
  exact ⟨n, fun fuel large => by rw [(agrees fuel large).1]; decide +kernel⟩

end Template

end Stencil
