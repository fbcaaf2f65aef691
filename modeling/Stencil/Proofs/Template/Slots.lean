import Stencil.Proofs.Template.Capture
import Stencil.Proofs.Template.Readings

/-!
# The slots of a template

Each `def` or `match` directive of a template has a slot of its own: the compiler numbers the slots by
the index of the element's start tag, and the two directives of one element get different numbers
(`Compile.slots_of_template`). So what is captured in a template whose events are steady can be read off
the template (`Template.bodies`).
-/

namespace Stencil

/-! ## Slots of lists -/

theorem Event.slotsOf_eq (es : List Event) : slotsOf es = es.flatMap slots := by
  induction es with
  | nil => rfl
  | cons e es ih => rw [slotsOf, ih, List.flatMap_cons]

theorem Directive.slotsOf_eq (ds : List Directive) : slotsOf ds = ds.flatMap slots := by
  induction ds with
  | nil => rfl
  | cons d ds ih => rw [slotsOf, ih, List.flatMap_cons]

theorem Event.slotsOf_append (es fs : List Event) : slotsOf (es ++ fs) = slotsOf es ++ slotsOf fs := by
  simp only [slotsOf_eq, List.flatMap_append]

theorem Event.slotsOf_reverse (es : List Event) : (slotsOf es.reverse).Perm (slotsOf es) := by
  simp only [slotsOf_eq]
  exact (List.reverse_perm es).flatMap_right _

theorem Directive.slotsOf_perm {ds ds' : List Directive} (h : ds.Perm ds') : (slotsOf ds).Perm (slotsOf ds') := by
  simp only [slotsOf_eq]
  exact h.flatMap_right _

namespace Compile

variable {t : Target} {s s' : State} {index : Nat} {p : Position}

/-! ## Slots of readings -/

/-- A directive has the slot of its name, if it has one. -/
theorem slots_of_read {a : Attribute} {r : DirectiveReading} (h : readDirective t index p a = .ok r) :
    r.directive.slots = [] ∨ r.directive.slots = [⟨t.id, slot a.name.base index⟩] ∧
      (a.name.base = DirectiveName.define.spelling ∨ a.name.base = DirectiveName.capture.spelling) := by
  obtain ⟨n, spelling, -, named⟩ := readNamed_of_read h
  rw [← spelling]
  cases readsTo_of_readNamed named with
  | define => exact .inr ⟨by rw [← spelling]; rfl, .inl rfl⟩
  | capture => exact .inr ⟨by rw [← spelling]; rfl, .inr rfl⟩
  | _ => exact .inl rfl

theorem slot_inj {m n : Text} (hm : m = DirectiveName.define.spelling ∨ m = DirectiveName.capture.spelling)
    (hn : n = DirectiveName.define.spelling ∨ n = DirectiveName.capture.spelling)
    (h : slot m index = slot n index) : m = n := by
  have define : slot DirectiveName.define.spelling index = 2 * index := rfl
  have capture : slot DirectiveName.capture.spelling index = 2 * index + 1 := rfl
  rcases hm with rfl | rfl <;> rcases hn with rfl | rfl
  · rfl
  · rw [define, capture] at h
    omega
  · rw [define, capture] at h
    omega
  · rfl

theorem slot_bounds (name : Text) (index : Nat) : 2 * index ≤ slot name index ∧ slot name index < 2 * (index + 1) := by
  unfold slot
  split <;> omega

/-- The directives of an element have different slots, as its attributes have different names. -/
theorem slots_of_readings {as : Attributes} {rs : List DirectiveReading} (distinct : as.Distinct)
    (directives : ∀ a ∈ as, isDirective a = true) (h : as.mapM (readDirective t index p) = .ok rs) :
    (Directive.slotsOf (rs.map (·.directive))).Nodup ∧ ∀ b ∈ Directive.slotsOf (rs.map (·.directive)),
      ∃ a ∈ as, (a.name.base = DirectiveName.define.spelling ∨ a.name.base = DirectiveName.capture.spelling) ∧
        b = ⟨t.id, slot a.name.base index⟩ := by
  have read := mapM_eq_ok_iff.1 h
  clear h
  induction read with
  | nil => simp [Directive.slotsOf]
  | @cons a r as rs first _ ih =>
    obtain ⟨others, distinct⟩ := List.pairwise_cons.1 distinct
    obtain ⟨directive, directives⟩ := List.forall_mem_cons.1 directives
    obtain ⟨once, all⟩ := ih distinct directives
    have later : ∀ b ∈ Directive.slotsOf (rs.map (·.directive)), ∃ a' ∈ a :: as,
        (a'.name.base = DirectiveName.define.spelling ∨ a'.name.base = DirectiveName.capture.spelling) ∧
          b = ⟨t.id, slot a'.name.base index⟩ := by
      intro b hb
      obtain ⟨a', ha', found⟩ := all b hb
      exact ⟨a', List.mem_cons_of_mem _ ha', found⟩
    simp only [List.map_cons, Directive.slotsOf]
    rcases slots_of_read first with none | ⟨slot, name⟩
    · rw [none, List.nil_append]
      exact ⟨once, later⟩
    · rw [slot, List.singleton_append]
      refine ⟨List.nodup_cons.2 ⟨fun again => ?_, once⟩, List.forall_mem_cons.2 ⟨⟨a, List.mem_cons_self, name, rfl⟩, later⟩⟩
      -- two directives with one slot are attributes of one name
      obtain ⟨a', ha', name', same⟩ := all _ again
      have base : a.name.base = a'.name.base := slot_inj name name' (congrArg BodyId.slot same)
      have uri : a.name.uri = a'.name.uri :=
        (beq_iff_eq.1 directive).trans (beq_iff_eq.1 (directives a' ha')).symm
      have apart := others a' ha'
      simp [QName.same, uri, base] at apart

/-! ## Slots while compiling -/

/-- The slots mentioned in what has been kept of the events read so far. -/
def State.slots (s : State) : List BodyId :=
  Event.slotsOf s.output ++ s.carriers.flatMap fun c => Directive.slotsOf c.directives ++ Event.slotsOf c.before

/-- Each slot is mentioned once, and numbered by one of the events before the given index. -/
structure Allotted (t : Target) (index : Nat) (s : State) : Prop where
  own : ∀ b ∈ s.slots, b.template = t.id ∧ b.slot < 2 * index
  once : s.slots.Nodup

theorem Allotted.next (h : Allotted t index s) (same : s'.slots.Perm s.slots) : Allotted t (index + 1) s' := by
  constructor
  · intro b hb
    obtain ⟨own, below⟩ := h.own b (same.mem_iff.1 hb)
    exact ⟨own, by omega⟩
  · exact same.nodup_iff.2 h.once

theorem slots_push {e : Event} (s : State) (h : e.slots = []) : (s.push e).slots = s.slots := by
  simp [State.slots, State.push, Event.slotsOf, h]

theorem slots_closeElement (s : State) (p : Position) (name : QName) :
    (s.closeElement (.endTag p name)).slots.Perm s.slots := by
  unfold State.closeElement
  split
  · rename_i c cs carriers level
    have element : Event.slotsOf (.endTag p name :: s.output).reverse |>.Perm (Event.slotsOf s.output) :=
      Event.slotsOf_reverse _
    rw [List.perm_iff_count] at element ⊢
    intro b
    have element := element b
    simp only [State.slots, carriers, Event.slotsOf, Event.slots, List.flatMap_cons, List.count_append] at element ⊢
    omega
  · rw [show ∀ level, (State.slots { s.push (.endTag p name) with level := level }) = (s.push (.endTag p name)).slots
      from fun _ => rfl, slots_push s rfl]

theorem Allotted.openElement (h : Allotted t index s) (name : QName) (as : Attributes) {readings : List DirectiveReading}
    (once : (Directive.slotsOf (readings.map (·.directive))).Nodup)
    (own : ∀ b ∈ Directive.slotsOf (readings.map (·.directive)),
      b.template = t.id ∧ 2 * index ≤ b.slot ∧ b.slot < 2 * (index + 1)) :
    Allotted t (index + 1) (s.openElement (.startTag p name as) readings) := by
  unfold State.openElement
  dsimp only
  split
  · exact h.next (.of_eq (slots_push s rfl))
  · have sorted : (Directive.slotsOf (sortByRank (readings.map (·.directive)))).Perm
        (Directive.slotsOf (readings.map (·.directive))) := Directive.slotsOf_perm (sortByRank_perm _)
    have whole : ((Directive.slotsOf (sortByRank (readings.map (·.directive))) ++ Event.slotsOf s.output) ++
        s.carriers.flatMap fun c => Directive.slotsOf c.directives ++ Event.slotsOf c.before).Perm
        (Directive.slotsOf (readings.map (·.directive)) ++ s.slots) := by
      rw [List.append_assoc]
      exact sorted.append_right _
    constructor
    · intro b hb
      rcases List.mem_append.1 (whole.mem_iff.1 hb) with new | old
      · exact ⟨(own b new).1, (own b new).2.2⟩
      · obtain ⟨own, below⟩ := h.own b old
        exact ⟨own, by omega⟩
    · refine whole.nodup_iff.2 (List.nodup_append.2 ⟨once, h.once, fun b new b' old same => ?_⟩)
      have above := (own b new).2.1
      have below := (h.own b' old).2
      rw [same] at above
      omega

theorem Allotted.step {e : Event} (h : Allotted t index s) (readable : e.Readable)
    (r : Compile.step t s (e, index) = .ok s') : Allotted t (index + 1) s' := by
  cases e with
  | startTag p name as =>
    obtain ⟨readings, read, rfl⟩ := step_startTag_ok.1 r
    obtain ⟨once, all⟩ := slots_of_readings ((readable.distinct p name as rfl).filter _)
      (fun a ha => (List.mem_filter.1 ha).2) read
    refine h.openElement name _ once fun b hb => ?_
    obtain ⟨a, -, -, rfl⟩ := all b hb
    exact ⟨rfl, slot_bounds _ _⟩
  | endTag p name =>
    cases r
    exact h.next (slots_closeElement s p name)
  | text p text =>
    cases r
    apply h.next
    have none : Event.slotsOf (textEvents p text).reverse = [] := by
      rw [Event.slotsOf_eq, List.flatMap_eq_nil_iff]
      intro e he
      obtain ⟨f, -, rfl⟩ := List.mem_map.1 (List.mem_reverse.1 he)
      cases f <;> rfl
    simp only [State.slots, Event.slotsOf_append, none, List.nil_append, List.Perm.refl]
  | startNamespace p pre uri =>
    cases r
    apply h.next
    split
    · exact .refl _
    · exact .of_eq (slots_push s rfl)
  | endNamespace p pre =>
    cases r
    apply h.next
    split
    · exact .refl _
    · exact .of_eq (slots_push s rfl)
  | comment | instruction | doctype =>
    cases r
    exact h.next (.of_eq (slots_push s rfl))
  | blank | expression | sub => cases readable.markup

theorem Allotted.run {es : List Event} (readable : ∀ e ∈ es, e.Readable) (h : Allotted t index s)
    (r : Compile.run t s es index = .ok s') : Allotted t (index + es.length) s' := by
  induction es generalizing s index with
  | nil =>
    cases r
    exact h
  | cons e es ih =>
    obtain ⟨first, rest⟩ := List.forall_mem_cons.1 readable
    obtain ⟨mid, read, r⟩ := run_cons_ok.1 r
    have after := ih rest (h.step first read) r
    rwa [show index + 1 + es.length = index + (e :: es).length by simp only [List.length_cons]; omega] at after

/-- The events that are kept mention no more slots than carriers and output do. -/
theorem count_slots_events (s : State) (b : BodyId) : (Event.slotsOf s.events).count b ≤ s.slots.count b := by
  rw [State.events_eq, (Event.slotsOf_reverse _).count_eq, Event.slotsOf_append, State.slots, List.count_append,
    List.count_append]
  apply Nat.add_le_add_left
  induction s.carriers with
  | nil => exact Nat.le_refl _
  | cons c cs ih =>
    simp only [List.flatMap_cons, Event.slotsOf_append, List.count_append]
    omega

/-- **A compiled template mentions each slot once**, and all of them are its own. -/
theorem slots_of_template {es : List Event} {template : Template} (readable : ∀ e ∈ es, e.Readable)
    (compiled : Compile.template t es = .ok template) :
    (Event.slotsOf template.events).Nodup ∧ ∀ b ∈ Event.slotsOf template.events, b.template = t.id := by
  obtain ⟨s, read, rfl⟩ := template_ok compiled
  have initial : Allotted t 0 .initial := by
    constructor <;> simp [State.slots, State.initial, Event.slotsOf]
  have allotted := initial.run readable read
  change (Event.slotsOf s.events).Nodup ∧ ∀ b ∈ Event.slotsOf s.events, b.template = t.id
  constructor
  · rw [List.nodup_iff_count_le_one]
    intro b
    have kept := count_slots_events s b
    have once := List.nodup_iff_count_le_one.1 allotted.once b
    omega
  · intro b hb
    have kept := count_slots_events s b
    have positive := List.count_pos_iff.2 hb
    exact (allotted.own b (List.count_pos_iff.1 (by omega))).1

end Compile

theorem Compilation.slots_of_document {t : Compile.Target} {document : List Callback} {template : Template}
    (compiled : (ofDocument t document).result = .ok template) :
    (Event.slotsOf template.events).Nodup ∧ ∀ b ∈ Event.slotsOf template.events, b.template = t.id := by
  obtain ⟨es, read, compiled⟩ := Compile.events_of_document compiled
  exact Compile.slots_of_template (Document.readable_of_read read) compiled

/-! ## What is captured in a template -/

theorem Directive.count_captures (b : BodyId) (ds : List Directive) (es : List Event) :
    ((captures ds es).map (·.1)).count b ≤ (slotsOf ds).count b := by
  induction ds generalizing es with
  | nil => simp [captures]
  | cons d ds ih =>
    have rest := ih (d.still es)
    have first : (d.slot?.toList.map (·, es) |>.map (·.1)).count b ≤ d.slots.count b := by
      cases d <;> simp [slot?, slots]
    simp only [captures, slotsOf, List.map_append, List.count_append] at first ⊢
    omega

namespace Event

mutual

theorem count_captures (b : BodyId) : ∀ e : Event, (e.captures.map (·.1)).count b ≤ e.slots.count b
  | sub _ ds es => by
    have directives := Directive.count_captures b ds.reverse es
    have reversed := (Directive.slotsOf_perm (List.reverse_perm ds)).count_eq b
    have inner := count_capturesOf b es
    simp only [captures, slots, List.map_append, List.count_append]
    omega
  | blank | startTag .. | endTag .. | text .. | startNamespace .. | endNamespace .. | comment .. | instruction ..
  | doctype .. | expression .. => Nat.le_refl _

theorem count_capturesOf (b : BodyId) : ∀ es : List Event, ((capturesOf es).map (·.1)).count b ≤ (slotsOf es).count b
  | [] => Nat.le_refl _
  | e :: es => by
    have first := count_captures b e
    have rest := count_capturesOf b es
    simp only [capturesOf, slotsOf, List.map_append, List.count_append]
    omega

end

end Event

theorem lookup_of_nodup {b : BodyId} {body : List Event} {cs : List (BodyId × List Event)} (once : (cs.map (·.1)).Nodup)
    (h : (b, body) ∈ cs) : cs.lookup b = some body := by
  obtain ⟨before, after, rfl⟩ := List.append_of_mem h
  refine List.lookup_eq_some_iff.2 ⟨before, after, rfl, fun c hc => ?_⟩
  rw [List.map_append, List.map_cons, List.nodup_append] at once
  simpa using (once.2.2 c.1 (List.mem_map_of_mem hc) b List.mem_cons_self).symm

namespace Template

/-- What is captured in each slot of a template whose events are steady. -/
def bodies (t : Template) : Bodies := fun b =>
  if b.template = t.id then some (((Event.capturesOf t.events).lookup b).getD []) else none

theorem bodies_eq_none {t : Template} {b : BodyId} : t.bodies b = none ↔ b.template ≠ t.id := by
  unfold bodies
  split
  · rename_i own
    simp [own]
  · rename_i other
    simp [other]

/-- The events of a template are faithful to what is captured in it. -/
theorem faithful_events {t : Template} (steady : Event.allSteady t.events = true)
    (once : (Event.slotsOf t.events).Nodup) (own : ∀ b ∈ Event.slotsOf t.events, b.template = t.id) :
    Event.AllFaithful t.bodies t.events := by
  have counted (b : BodyId) := Event.count_capturesOf b t.events
  refine Event.allFaithful_of_captures steady ?_
  rintro ⟨b, body⟩ hc
  have mem : b ∈ Event.slotsOf t.events := by
    have positive : 0 < ((Event.capturesOf t.events).map (·.1)).count b :=
      List.count_pos_iff.2 (List.mem_map_of_mem hc)
    have kept := counted b
    exact List.count_pos_iff.1 (by omega)
  have distinct : ((Event.capturesOf t.events).map (·.1)).Nodup := by
    rw [List.nodup_iff_count_le_one] at once ⊢
    intro b
    have kept := counted b
    have once := once b
    omega
  change t.bodies b = some body
  unfold bodies
  rw [if_pos (own b mem), lookup_of_nodup distinct hc]
  rfl

end Template

end Stencil
