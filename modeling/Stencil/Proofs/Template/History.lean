import Stencil.Proofs.Xml.Rendering

/-!
# Renderings forget

A template object keeps what its `def` and `match` directives have captured, for all renderings to come.
If what they capture does not depend on the context, and no match template is used before it has been
captured, this can't be seen: a template that has been rendered before renders the same as one that has
just been compiled (`Template.rendering_forgets`). Both conditions are needed
(`Template.rendering_remembers`).
-/

namespace Stencil

/-! ## Stores that a template is new to -/

/-- Functions that no rendering of the template with the given number has made. -/
def Stock.foreign (n : Nat) : Stock where
  function f := match f.kind with
    | .template _ body => body.template ≠ n
    | .select matched => ∀ b ∈ Event.slotsOf matched, b.template ≠ n
    | _ => True
  stream _ := True

/-- As `Stock.foreign`, without streams. -/
def Stock.plain (n : Nat) : Stock := { Stock.foreign n with stream := fun _ => False }

/-- Events in which the template with the given number captures nothing. -/
def Event.Foreign (n : Nat) (es : List Event) : Prop := ∀ b ∈ slotsOf es, b.template ≠ n

def Replay.Foreign (n : Nat) : Replay → Prop
  | plain es | running _ es => Event.Foreign n es
  | waiting frame es => Entries.From (.foreign n) frame ∧ Event.Foreign n es
  | finished => True

namespace Store

/-- The template has never been rendered, and at most the library holds it. -/
structure Foreign (t : Template) (s : Store) : Prop where
  numbered : t.id < s.nextTemplate
  context : s.context.From (.foreign t.id)
  bodies : ∀ b es, s.captured? b = some es → b.template ≠ t.id ∧ Event.Foreign t.id es
  replays : ∀ r ∈ s.replays, r.Foreign t.id
  holdings : ∀ l ∈ s.library?, ∀ h ∈ l.holdings,
    h.2.template.events = t.events ∨ Event.Foreign t.id h.2.template.events

/-- The store as it is for a copy of the template that has just been compiled: nothing has been captured
in its slots. -/
def forget (s : Store) (n : Nat) : Store := s.withBodies (s.bodies.filter (·.1.template ≠ n))

/-- The store with a new context. -/
def against (s : Store) (v : Frame) : Store := { s with context := .ofBase v }

theorem captured_forget (s : Store) (n : Nat) (b : BodyId) :
    (s.forget n).captured? b = if b.template = n then none else s.captured? b := by
  unfold captured? forget withBodies
  rw [List.find?_filter]
  split
  · rename_i own
    rw [Option.map_eq_none_iff, List.find?_eq_none]
    intro c _
    by_cases same : c.1 = b
    · simp [same, own]
    · simp [same]
  · rename_i other
    congr 2
    funext c
    by_cases same : c.1 = b
    · simp [same, other]
    · simp [same]

end Store

section

variable {t : Template} {full : BodyId → Prop}

theorem Event.Foreign.faithful {es : List Event} (h : Event.Foreign t.id es) : Event.AllFaithful t.bodies es :=
  Event.allFaithful_of_slots fun b hb => Template.bodies_eq_none.2 (h b hb)

theorem Stock.plain_le {first : Nat} : Stock.plain t.id ≤ Stock.callable ⟨t.bodies, first⟩ full where
  function := by
    rintro ⟨id, kind⟩ made
    cases kind with
    | template signature body => exact fun isKnown => absurd (Template.bodies_eq_none.2 made) isKnown
    | select matched => exact Event.Foreign.faithful made
    | _ => trivial
  stream := fun _ none => none.elim

/-- No stream is too old to be looked at. -/
theorem Stock.foreign_le : Stock.foreign t.id ≤ Stock.callable ⟨t.bodies, 0⟩ full where
  function := Stock.plain_le.function
  stream := fun _ _ => Nat.zero_le _

theorem Replay.Foreign.faithful {r : Replay} (h : r.Foreign t.id) : r.Faithful ⟨t.bodies, 0⟩ full := by
  cases r with
  | plain | running => exact Event.Foreign.faithful h
  | waiting frame es => exact ⟨h.1.mono Stock.foreign_le, Event.Foreign.faithful h.2⟩
  | finished => trivial

theorem Store.Foreign.faithful {s : Store} (events : Event.AllFaithful t.bodies t.events) (h : s.Foreign t) :
    s.Faithful ⟨t.bodies, 0⟩ := by
  refine ⟨?_, ?_, h.context.mono Stock.foreign_le, ?_, Nat.zero_le _, ?_, ?_⟩
  · intro b es captured body isKnown
    have unknown : t.bodies b = none := Template.bodies_eq_none.2 (h.bodies b es captured).1
    rw [show (⟨t.bodies, 0⟩ : Known) b = t.bodies b from rfl, unknown] at isKnown
    cases isKnown
  · exact fun b es captured => (h.bodies b es captured).2.faithful
  · intro id _
    unfold Store.replay
    cases found : s.replays[id]? with
    | none => trivial
    | some r => exact (h.replays r (Array.mem_of_getElem? found)).faithful
  · intro l found holding hh
    rcases h.holdings l found holding hh with itself | other
    · exact itself ▸ events
    · exact other.faithful
  · intro b later
    have numbered := h.numbered
    exact Template.bodies_eq_none.2 (by omega)

end

/-! ## Earlier renderings -/

namespace Template

/-- The store after some events of a rendering have been pulled, or all, and the rendering was given
up. -/
def attempt (t : Template) (fuel : Nat) (limit? : Option Nat) (s : Store) : Store :=
  let pulled := t.expansion.collect fuel limit? s
  pulled.stream.giveUp pulled.store

/-- The store after renderings of the template, complete, given up or failed, with the contexts that they
have left behind. Each of them was against a context of its own, made of what was at hand. -/
inductive History (t : Template) : List Context → Store → Prop
  | start {s : Store} (new : s.Foreign t) : History t [] s
  | attempt {cs : List Context} {s : Store} (before : History t cs s) (c : Context)
      (atHand : ∀ k, Stock.foreign t.id ≤ k → (∀ c' ∈ cs, c'.From k) → c.From k) (fuel : Nat) (limit? : Option Nat) :
      History t ((t.attempt fuel limit? { s with context := c }).context :: cs)
        (t.attempt fuel limit? { s with context := c })

/-- In every rendering, match templates are only used once they have been captured. -/
def Prepared (t : Template) (s : Store) : Prop :=
  ∀ k es u r, Stream.Run k t.expansion s es u r → ∀ b ∈ u.expanding? r, b.template = t.id → r.full b

/-- The next step uses no match template of the template with the given number that has not been captured. -/
def isPrepared (n : Nat) (u : Stream) (s : Store) : Bool :=
  (u.expanding? s).all fun b => b.template != n || (s.captured? b).isSome

/-- A rendering that comes to an end can be tested. -/
theorem prepared_of_everyState {t : Template} {s : Store} {k n : Nat}
    (h : Stream.everyState (isPrepared t.id) k n t.expansion s = true) : t.Prepared s := by
  intro k' es u r run b hb own
  have tested := Stream.test_of_everyState h run
  rw [isPrepared, Option.mem_def.1 hb] at tested
  simpa [own, Store.full] using tested

/-- From both stores, the same text or error is rendered. -/
def RendersAlike (t : Template) (s s' : Store) : Prop :=
  ∃ n, ∀ fuel, n ≤ fuel → (t.render fuel s).1 = (t.render fuel s').1

variable {t : Template} {s s' : Store}

theorem render_eq_outcome (fuel : Nat) : (t.render fuel s).1 = (Xml.render fuel .fresh t.expansion s).outcome := by
  unfold render Xml.Rendering.outcome
  dsimp only
  cases (Xml.render fuel .fresh t.expansion s).stop? <;> rfl

theorem attempt_keeps (events : Event.AllFaithful t.bodies t.events) (faithful : s.Faithful ⟨t.bodies, 0⟩) (fuel : Nat)
    (limit? : Option Nat) :
    (t.attempt fuel limit? s).Faithful ⟨t.bodies, 0⟩ ∧ ∀ b, s.full b → (t.attempt fuel limit? s).full b := by
  have reached : t.expansion.Reaches s (t.expansion.collect fuel limit? s).stream (t.expansion.collect fuel limit? s).store :=
    Stream.Reaches.start.collectFrom [] fuel limit?
  have kept := reached.kept (t.faithful_expansion events) faithful
  refine ⟨kept.store.giveUp _, fun b isFull => ?_⟩
  unfold attempt
  rw [Store.full_congr (Stream.bodies_giveUp _ _)]
  exact kept.grown b isFull

/-- Whatever has been rendered, what has been captured is what is known. -/
theorem History.faithful (events : Event.AllFaithful t.bodies t.events) {cs : List Context} (h : t.History cs s) :
    s.Faithful ⟨t.bodies, 0⟩ ∧ ∀ c ∈ cs, c.From (.callable ⟨t.bodies, 0⟩ s.full) := by
  induction h with
  | start new => exact ⟨new.faithful events, by simp⟩
  | @attempt cs s _ c atHand fuel limit? ih =>
    obtain ⟨faithful, contexts⟩ := ih
    have made : c.From (.callable ⟨t.bodies, 0⟩ s.full) := atHand _ Stock.foreign_le contexts
    obtain ⟨after, grown⟩ := attempt_keeps events (faithful.withContext made) fuel limit?
    refine ⟨after, List.forall_mem_cons.2 ⟨after.context, fun c' hc' => ?_⟩⟩
    exact (contexts c' hc').mono (Stock.callable_mono grown)

/-- The store in which something has been captured is ahead of the one in which it is forgotten. In the new
context there are no streams, so the old ones are of no matter. -/
theorem ahead_forget (faithful : s.Faithful ⟨t.bodies, 0⟩) {v : Frame} (plain : Entries.From (.plain t.id) v) :
    Store.Ahead ⟨t.bodies, s.replays.size⟩ s.bodies ((s.forget t.id).against v) := by
  have captured (b : BodyId) : ((s.forget t.id).against v).captured? b = if b.template = t.id then none else s.captured? b :=
    s.captured_forget t.id b
  have less : ∀ b es, ((s.forget t.id).against v).captured? b = some es → s.captured? b = some es := by
    intro b es found
    rw [captured] at found
    split at found
    · cases found
    · exact found
  refine ⟨less, ?_, faithful.kept, faithful.bodies, ?_⟩
  · intro b unknown
    rw [captured, if_neg (bodies_eq_none.1 unknown)]
    rfl
  · refine ⟨fun b es found => faithful.kept b es (less b es found), fun b es found => faithful.bodies b es (less b es found),
      ?_, ?_, Nat.le_refl _, faithful.holdings, faithful.numbers⟩
    · intro f hf
      rw [List.mem_singleton.1 hf]
      exact plain.mono Stock.plain_le
    · intro id late
      have absent : ((s.forget t.id).against v).replay id = .finished := Store.replay_absent (Nat.not_lt.2 late)
      rw [absent]
      trivial

/-- Texts that differ are rendered. -/
theorem not_rendersAlike (fuel : Nat) {a b : Text} (first : (t.render fuel s).1.toOption = some a)
    (second : (t.render fuel s').1.toOption = some b) (differ : a ≠ b) : ¬ t.RendersAlike s s' := by
  have stays {s : Store} {a : Text} (renders : (t.render fuel s).1.toOption = some a) :
      ∃ n, ∀ more, n ≤ more → (t.render more s).1 = .ok a := by
    have ok : (Xml.render fuel .fresh t.expansion s).outcome = .ok a := by
      rw [← render_eq_outcome]
      cases r : (t.render fuel s).1 with
      | error => rw [r] at renders; cases renders
      | ok => rw [r] at renders; cases renders; rfl
    obtain ⟨n, comes⟩ := Xml.outcome_stays (by rw [ok]; simp)
    exact ⟨n, fun more large => (render_eq_outcome more).trans ((comes more large).trans ok)⟩
  rintro ⟨n, same⟩
  obtain ⟨i, one⟩ := stays first
  obtain ⟨j, other⟩ := stays second
  have equal := same (max n (max i j)) (by omega)
  rw [one _ (by omega), other _ (by omega)] at equal
  exact differ (Except.ok.inj equal)

/-! ## Small documents -/

/-- A start tag with directives. -/
def startOf (name : Text) (directives : List (Text × Text)) : Callback :=
  .startElement ⟨1, 1⟩ ⟨name, none, none⟩ []
    (directives.map fun d => ⟨⟨d.1, some "py", some directiveNamespace⟩, d.2⟩)

def endOf (name : Text) : Callback := .endElement ⟨1, 1⟩ ⟨name, none, none⟩

def characters (t : Text) : Callback := .characters ⟨1, 1⟩ t

/-- A store in which one template has been compiled. -/
def firstStore : Store := { Store.ofContext (.ofBase []) (.empty []) with nextTemplate := 1 }

theorem foreign_firstStore (own : t.id = 0) : firstStore.Foreign t where
  numbered := own ▸ Nat.one_pos
  context := by
    intro f hf
    rw [List.mem_singleton.1 hf]
    exact .nil
  bodies := by
    intro b es captured
    cases captured
  replays := by simp [firstStore, Store.ofContext]
  holdings := by
    intro l found
    cases found

/-- One rendering against a frame of numbers. -/
theorem history_firstStore (own : t.id = 0) {name : Text} {n : Int64} (fuel : Nat) (limit? : Option Nat) :
    t.History [(t.attempt fuel limit? (firstStore.against [(name, .int n)])).context]
      (t.attempt fuel limit? (firstStore.against [(name, .int n)])) := by
  refine .attempt (.start (foreign_firstStore own)) (.ofBase [(name, .int n)]) ?_ fuel limit?
  intro k _ _ f hf
  rw [List.mem_singleton.1 hf]
  exact .cons trivial .nil

/-! ## Later renderings -/

/-- **Renderings forget.** Take a template in which no directive that looks at the context is on an element
that is captured. After any earlier renderings of it, against any contexts, it renders the same text or
error as a copy that has just been compiled, if that uses no match template before it has been captured. -/
theorem rendering_forgets {registry : Registry} {document : List Callback}
    (compiled : (Compilation.ofDocument ⟨t.id, t.filename, registry⟩ document).result = .ok { t with preFilters := [.evaluate] })
    (steady : Event.allSteady t.events = true) {cs : List Context} (history : t.History cs s) {v : Frame}
    (plain : Entries.From (.plain t.id) v) (prepared : t.Prepared ((s.forget t.id).against v)) :
    t.RendersAlike (s.against v) ((s.forget t.id).against v) := by
  obtain ⟨once, own⟩ := Compilation.slots_of_document compiled
  have events : Event.AllFaithful t.bodies t.events := faithful_events steady once own
  obtain ⟨faithful, -⟩ := history.faithful events
  have ready : ∀ k, Stream.Ready ⟨t.bodies, s.replays.size⟩ k t.expansion ((s.forget t.id).against v) := by
    intro k es u r run b hb isKnown
    have mine : b.template = t.id := by_contra fun other => isKnown (bodies_eq_none.2 other)
    exact prepared k es u r run b hb mine
  obtain ⟨n, same⟩ := Xml.outcome_withBodies (w := .fresh) ready (t.faithful_expansion events) (ahead_forget faithful plain)
  refine ⟨n, fun fuel large => ?_⟩
  rw [render_eq_outcome, render_eq_outcome]
  exact same fuel large

/-- A match template that calls a function, both before their use. -/
def orderlyDocument : List Callback :=
  [startOf "a" [], startOf "b" [("def", "f()"), ("strip", "")], characters "B", endOf "b", startOf "c" [("match", "i")],
    characters "${f()}", endOf "c", startOf "i" [], endOf "i", endOf "a"]

def orderly : Template :=
  ⟨0, "t.xml", [.startTag ⟨1, 0⟩ (.plain "a") [],
    .sub ⟨1, 0⟩ [.define ⟨"f", []⟩ ⟨0, 2⟩, .strip none]
      [.startTag ⟨1, 0⟩ (.plain "b") [], .text ⟨1, 0⟩ "B", .endTag ⟨1, 0⟩ (.plain "b")],
    .sub ⟨1, 0⟩ [.capture ⟨0, 9⟩]
      [.startTag ⟨1, 0⟩ (.plain "c") [], .expression ⟨1, 0⟩ ⟨"f()"⟩, .endTag ⟨1, 0⟩ (.plain "c")],
    .startTag ⟨1, 0⟩ (.plain "i") [], .endTag ⟨1, 0⟩ (.plain "i"), .endTag ⟨1, 0⟩ (.plain "a")], [.evaluate],
    [.substitute ⟨"i", [⟨false, [⟨.child, .element "i", none⟩]⟩]⟩ ⟨0, 9⟩], [.tidy]⟩

/-- An earlier rendering was given up after two events. -/
theorem rendering_forgets_orderly :
    let v : Frame := [("x", .int 0)]
    let s := orderly.attempt 60 (some 2) (firstStore.against [("x", .int 1)])
    s.bodies.length = 2 ∧ (orderly.render 60 ((s.forget 0).against v)).1.toOption = some "<a><c>B</c></a>" ∧
      orderly.RendersAlike (s.against v) ((s.forget 0).against v) := by
  intro v s
  have compiled : (Compilation.ofDocument ⟨0, "t.xml", .empty⟩ orderlyDocument).result = .ok orderly := rfl
  have prepared : orderly.Prepared ((s.forget 0).against v) :=
    prepared_of_everyState (k := 60) (n := 100) (by decide +kernel)
  refine ⟨by decide +kernel, by decide +kernel, ?_⟩
  exact rendering_forgets (t := orderly) compiled (by decide) (history_firstStore rfl 60 (some 2)) (.cons trivial .nil) prepared

/-- Whether the function has a body depends on the context of the rendering that defines it first. -/
def conditionedDocument : List Callback :=
  [startOf "a" [], startOf "b" [("def", "f()"), ("if", "x")], characters "B", endOf "b", characters "${f()}", endOf "a"]

def conditioned : Template :=
  ⟨0, "t.xml", [.startTag ⟨1, 0⟩ (.plain "a") [],
    .sub ⟨1, 0⟩ [.define ⟨"f", []⟩ ⟨0, 2⟩, .condition ⟨"x"⟩]
      [.startTag ⟨1, 0⟩ (.plain "b") [], .text ⟨1, 0⟩ "B", .endTag ⟨1, 0⟩ (.plain "b")],
    .expression ⟨1, 0⟩ ⟨"f()"⟩, .endTag ⟨1, 0⟩ (.plain "a")], [.evaluate], [], [.tidy]⟩

/-- The match template comes after the element that it replaces. -/
def lateDocument : List Callback :=
  [startOf "a" [], startOf "i" [], endOf "i", startOf "b" [("match", "i")], characters "B", endOf "b", endOf "a"]

def late : Template :=
  ⟨0, "t.xml", [.startTag ⟨1, 0⟩ (.plain "a") [], .startTag ⟨1, 0⟩ (.plain "i") [], .endTag ⟨1, 0⟩ (.plain "i"),
    .sub ⟨1, 0⟩ [.capture ⟨0, 7⟩]
      [.startTag ⟨1, 0⟩ (.plain "b") [], .text ⟨1, 0⟩ "B", .endTag ⟨1, 0⟩ (.plain "b")],
    .endTag ⟨1, 0⟩ (.plain "a")], [.evaluate],
    [.substitute ⟨"i", [⟨false, [⟨.child, .element "i", none⟩]⟩]⟩ ⟨0, 7⟩], [.tidy]⟩

/-- A template may remember what was rendered before, in both of these ways. -/
theorem rendering_remembers :
    let v (n : Int64) : Frame := [("x", .int n)]
    let s := conditioned.attempt 60 none (firstStore.against (v 1))
    let r := late.attempt 60 none (firstStore.against (v 1))
    (Compilation.ofDocument ⟨0, "t.xml", .empty⟩ conditionedDocument).result = .ok conditioned ∧
      (Compilation.ofDocument ⟨0, "t.xml", .empty⟩ lateDocument).result = .ok late ∧ conditioned.History [s.context] s ∧
      late.History [r.context] r ∧ Entries.From (.plain 0) (v 0) ∧
      ¬ conditioned.RendersAlike (s.against (v 0)) ((s.forget 0).against (v 0)) ∧
      ¬ late.RendersAlike (r.against (v 0)) ((r.forget 0).against (v 0)) := by
  intro v s r
  refine ⟨rfl, rfl, history_firstStore rfl 60 none, history_firstStore rfl 60 none, .cons trivial .nil, ?_, ?_⟩
  · exact not_rendersAlike 60 (a := "<a><b>B</b></a>") (b := "<a/>") (by decide +kernel) (by decide +kernel)
      (by decide)
  · exact not_rendersAlike 60 (a := "<a><b>B</b></a>") (b := "<a/>") (by decide +kernel) (by decide +kernel)
      (by decide)

end Template

end Stencil
