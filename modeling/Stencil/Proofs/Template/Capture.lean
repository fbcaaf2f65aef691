import Mathlib.Data.List.Basic
import Stencil.Event

/-!
# What directives capture

A `def` or `match` directive captures, once, what the directives applied before it have made of its
element. If none of these looks at the context (`Directive.isStill`), this can be said beforehand: it is
one of `Event.captures`.

`known` says of some slots which events are captured there. An event is faithful if every capture in it,
however deep, is of the events that `known` says. Events whose captures are for unknown slots are
faithful whatever their directives are.
-/

namespace Stencil

/-- The events that are captured in a slot, where this is known beforehand. -/
abbrev Bodies := BodyId → Option (List Event)

/-! ## Directives that do not look at the context -/

namespace Directive

/-- Where the directive keeps the events it captures. -/
def slot? : Directive → Option BodyId
  | define _ body | capture body => some body
  | _ => none

/-- What the directive makes of an element is the same in all contexts. -/
def isStill : Directive → Bool
  | define .. | capture _ | replace _ | content _ | strip none => true
  | extension ⟨_, _, .unless⟩ none | extension ⟨_, _, .twice⟩ _ => true
  | _ => false

/-- The first tag, the expression, and the last event. -/
def filled (x : Expression) : List Event → List Event
  | [] => []
  | e :: es => (if e.isStart then [e] else []) ++ .expression e.position x :: es.getLast?.toList

/-- The expression in the place of the element. -/
def replacement (x : Expression) : List Event → List Event
  | [] => []
  | e :: _ => [.expression e.position x]

/-- The events between the first and the last one. -/
def inside (es : List Event) : List Event := es.tail.dropLast

/-- What a directive that does not look at the context makes of the events of an element. -/
def still : Directive → List Event → List Event
  | replace x, es => replacement x es
  | content x, es => filled x es
  | strip none, es => inside es
  | extension ⟨_, _, .twice⟩ _, es => es ++ es
  | extension ⟨_, _, .unless⟩ none, es => es
  | _, _ => []

/-- None of the slots of the directives is a known one. -/
def Free (known : Bodies) (ds : List Directive) : Prop := ∀ d ∈ ds, ∀ b ∈ d.slot?, known b = none

/-- Directives, the one to be applied first in front, that capture what is known when they are applied to
the events. -/
inductive Settled (known : Bodies) : List Directive → List Event → Prop
  | free {ds : List Directive} {es : List Event} (free : Free known ds) : Settled known ds es
  | still {d : Directive} {ds : List Directive} {es : List Event} (still : d.isStill = true)
      (kept : ∀ b ∈ d.slot?, ∀ body, known b = some body → body = es) (rest : Settled known ds (d.still es)) :
      Settled known (d :: ds) es

/-- What the directives capture one after the other. -/
def captures : List Directive → List Event → List (BodyId × List Event)
  | [], _ => []
  | d :: ds, es => d.slot?.toList.map (·, es) ++ captures ds (d.still es)

variable {known : Bodies} {d : Directive} {ds : List Directive} {es : List Event}

theorem Free.tail (h : Free known (d :: ds)) : Free known ds := fun e he => h e (List.mem_cons_of_mem _ he)

/-- Still directives whose captures are known ones. -/
theorem settled_of_captures (h : ∀ d ∈ ds, d.isStill = true)
    (captured : ∀ c ∈ captures ds es, known c.1 = some c.2) : Settled known ds es := by
  induction ds generalizing es with
  | nil =>
    apply Settled.free
    simp [Free]
  | cons d ds ih =>
    obtain ⟨first, rest⟩ := List.forall_mem_cons.1 h
    refine .still first ?_ (ih rest fun c hc => captured c (List.mem_append_right _ hc))
    intro b hb body same
    have kept : known b = some es := by
      apply captured (b, es)
      simp [captures, Option.mem_def.1 hb]
    rw [kept] at same
    exact (Option.some.inj same).symm

end Directive

/-! ## Faithful events -/

mutual

/-- Every capture in the event is of what is known to be captured there. -/
def Event.Faithful (known : Bodies) : Event → Prop
  | .sub _ ds es => Directive.Settled known ds.reverse es ∧ Directive.AllFaithful known ds ∧ Event.AllFaithful known es
  | _ => True

def Event.AllFaithful (known : Bodies) : List Event → Prop
  | [] => True
  | e :: es => e.Faithful known ∧ Event.AllFaithful known es

/-- The matched events of the directive are faithful, if it has some. -/
def Directive.Faithful (known : Bodies) : Directive → Prop
  | .expand _ matched => Event.AllFaithful known matched
  | _ => True

def Directive.AllFaithful (known : Bodies) : List Directive → Prop
  | [] => True
  | d :: ds => d.Faithful known ∧ Directive.AllFaithful known ds

end

theorem Event.allFaithful_iff {known : Bodies} {es : List Event} :
    Event.AllFaithful known es ↔ ∀ e ∈ es, e.Faithful known := by
  induction es with
  | nil => simp [Event.AllFaithful]
  | cons e es ih => simp [Event.AllFaithful, ih]

theorem Directive.allFaithful_iff {known : Bodies} {ds : List Directive} :
    Directive.AllFaithful known ds ↔ ∀ d ∈ ds, d.Faithful known := by
  induction ds with
  | nil => simp [Directive.AllFaithful]
  | cons d ds ih => simp [Directive.AllFaithful, ih]

theorem Event.allFaithful_reverse {known : Bodies} {es : List Event} (h : Event.AllFaithful known es) :
    Event.AllFaithful known es.reverse := by
  rw [allFaithful_iff] at h ⊢
  exact fun e he => h e (List.mem_reverse.1 he)

theorem Directive.allFaithful_reverse {known : Bodies} {ds : List Directive} (h : Directive.AllFaithful known ds) :
    Directive.AllFaithful known ds.reverse := by
  rw [allFaithful_iff] at h ⊢
  exact fun d hd => h d (List.mem_reverse.1 hd)

@[simp] theorem Event.faithful_expression {known : Bodies} (p : Position) (x : Expression) :
    (Event.expression p x).Faithful known := trivial

@[simp] theorem Event.faithful_text {known : Bodies} (p : Position) (t : Text) : (Event.text p t).Faithful known :=
  trivial

/-! ## Slots -/

mutual

/-- All slots that are mentioned in the event. -/
def Event.slots : Event → List BodyId
  | .sub _ ds es => Directive.slotsOf ds ++ Event.slotsOf es
  | _ => []

def Event.slotsOf : List Event → List BodyId
  | [] => []
  | e :: es => e.slots ++ Event.slotsOf es

def Directive.slots : Directive → List BodyId
  | .define _ body | .capture body => [body]
  | .expand _ matched => Event.slotsOf matched
  | _ => []

def Directive.slotsOf : List Directive → List BodyId
  | [] => []
  | d :: ds => d.slots ++ Directive.slotsOf ds

end

theorem Directive.mem_slots {d : Directive} {b : BodyId} (h : b ∈ d.slot?) : b ∈ d.slots := by
  cases d with
  | define | capture =>
    cases h
    exact List.mem_singleton.2 rfl
  | _ => cases h

theorem Directive.mem_slotsOf {ds : List Directive} {b : BodyId} : b ∈ slotsOf ds ↔ ∃ d ∈ ds, b ∈ d.slots := by
  induction ds with
  | nil => simp [slotsOf]
  | cons d ds ih => simp [slotsOf, ih]

mutual

/-- Events without known slots are faithful. -/
theorem Event.faithful_of_slots {known : Bodies} : ∀ {e : Event}, (∀ b ∈ e.slots, known b = none) → e.Faithful known
  | .sub _ ds es, h => by
    have directives : ∀ b ∈ Directive.slotsOf ds, known b = none := fun b hb => h b (List.mem_append_left _ hb)
    refine ⟨.free ?_, Directive.allFaithful_of_slots directives,
      Event.allFaithful_of_slots fun b hb => h b (List.mem_append_right _ hb)⟩
    intro d hd b hb
    apply directives
    exact Directive.mem_slotsOf.2 ⟨d, List.mem_reverse.1 hd, Directive.mem_slots hb⟩
  | .blank, _ | .startTag .., _ | .endTag .., _ | .text .., _ | .startNamespace .., _ | .endNamespace .., _
  | .comment .., _ | .instruction .., _ | .doctype .., _ | .expression .., _ => trivial

theorem Event.allFaithful_of_slots {known : Bodies} :
    ∀ {es : List Event}, (∀ b ∈ Event.slotsOf es, known b = none) → Event.AllFaithful known es
  | [], _ => trivial
  | _ :: _, h => ⟨Event.faithful_of_slots fun b hb => h b (List.mem_append_left _ hb),
    Event.allFaithful_of_slots fun b hb => h b (List.mem_append_right _ hb)⟩

theorem Directive.faithful_of_slots {known : Bodies} :
    ∀ {d : Directive}, (∀ b ∈ d.slots, known b = none) → d.Faithful known
  | .expand _ _, h => Event.allFaithful_of_slots h
  | .define .., _ | .capture _, _ | .loop .., _ | .condition _, _ | .replace _, _ | .content _, _ | .attributes _, _
  | .strip _, _ | .extension .., _ => trivial

theorem Directive.allFaithful_of_slots {known : Bodies} :
    ∀ {ds : List Directive}, (∀ b ∈ Directive.slotsOf ds, known b = none) → Directive.AllFaithful known ds
  | [], _ => trivial
  | _ :: _, h => ⟨Directive.faithful_of_slots fun b hb => h b (List.mem_append_left _ hb),
    Directive.allFaithful_of_slots fun b hb => h b (List.mem_append_right _ hb)⟩

end

/-! ## Events that say what is captured -/

namespace Event

mutual

/-- No directive that looks at the context is on an element whose events are captured. -/
def isSteady : Event → Bool
  | sub _ ds es => (ds.all Directive.isStill || (Directive.slotsOf ds).isEmpty) && allSteady es
  | _ => true

def allSteady : List Event → Bool
  | [] => true
  | e :: es => e.isSteady && allSteady es

end

mutual

/-- All captures in the event, with what they are of if no directive before them looks at the context. -/
def captures : Event → List (BodyId × List Event)
  | sub _ ds es => Directive.captures ds.reverse es ++ capturesOf es
  | _ => []

def capturesOf : List Event → List (BodyId × List Event)
  | [] => []
  | e :: es => e.captures ++ capturesOf es

end

mutual

/-- Steady events are faithful to what is captured in them. -/
theorem faithful_of_captures {known : Bodies} :
    ∀ {e : Event}, e.isSteady = true → (∀ c ∈ e.captures, known c.1 = some c.2) → e.Faithful known
  | sub _ ds es, steady, h => by
    simp only [isSteady, Bool.and_eq_true, Bool.or_eq_true, List.all_eq_true, List.isEmpty_iff] at steady
    obtain ⟨directives, inner⟩ := steady
    refine ⟨?_, ?_, allFaithful_of_captures inner fun c hc => h c (List.mem_append_right _ hc)⟩
    · rcases directives with still | none
      · apply Directive.settled_of_captures
        · intro d hd
          exact still d (List.mem_reverse.1 hd)
        · intro c hc
          exact h c (List.mem_append_left _ hc)
      · apply Directive.Settled.free
        intro d hd b hb
        have mem := Directive.mem_slotsOf.2 ⟨d, List.mem_reverse.1 hd, Directive.mem_slots hb⟩
        rw [none] at mem
        cases mem
    · rcases directives with still | none
      · refine Directive.allFaithful_iff.2 fun d hd => ?_
        have still := still d hd
        cases d with
        | expand => cases still
        | _ => trivial
      · apply Directive.allFaithful_of_slots
        simp [none]
  | blank, _, _ | startTag .., _, _ | endTag .., _, _ | text .., _, _ | startNamespace .., _, _
  | endNamespace .., _, _ | comment .., _, _ | instruction .., _, _ | doctype .., _, _ | expression .., _, _ => trivial

theorem allFaithful_of_captures {known : Bodies} :
    ∀ {es : List Event}, allSteady es = true → (∀ c ∈ capturesOf es, known c.1 = some c.2) → AllFaithful known es
  | [], _, _ => trivial
  | e :: es, steady, h => by
    obtain ⟨first, rest⟩ := Bool.and_eq_true_iff.1 steady
    exact ⟨faithful_of_captures first fun c hc => h c (List.mem_append_left _ hc),
      allFaithful_of_captures rest fun c hc => h c (List.mem_append_right _ hc)⟩

end

end Event

end Stencil
