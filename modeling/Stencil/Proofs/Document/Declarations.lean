import Mathlib.Data.List.Nodup
import Stencil.Event

/-!
# Declarations and their ends

The end of a declaration names a prefix only. In events whose tags and declarations pair up
(`Event.PairsUp`) it ends the innermost declaration that is open. Who keeps nothing but a list of prefixes, in
order to drop the declarations of one namespace, can't tell which of the declarations of a prefix that is:

* if each declaration of the namespace is noted by itself, the right ends are dropped if and only if no such
  declaration is shadowed, which means that its prefix is not declared for another namespace inside of it
  (`Event.inPairs_cons_iff`);
* if each prefix is noted once, they are if and only if its prefix is not declared again at all
  (`Event.inPairs_insert_iff`).

What remains if the right ends are dropped pairs up again (`Event.pairsUp_dropNoted`).
-/

namespace Stencil

/-- What is open: an element, or the declaration of a prefix. -/
inductive Bracket where
  | element (name : Text)
  | declaration (pre uri : Text)
deriving DecidableEq

/-- The bracket is no declaration of the namespace. -/
def Bracket.isOther (uri : Text) : Bracket → Bool
  | .element _ => true
  | .declaration _ u => u != uri

namespace Event

/-! ## Pairing up -/

/-- What is open after an event, from the inside out. An end tag needs the innermost bracket to be its element, the
end of a declaration needs it to declare its prefix. -/
def enclose (brackets : List Bracket) : Event → Option (List Bracket)
  | startTag _ name _ => some (.element name.qualified :: brackets)
  | endTag _ name =>
    match brackets with
    | .element n :: outer => if n = name.qualified then some outer else none
    | _ => none
  | startNamespace _ pre uri => some (.declaration pre uri :: brackets)
  | endNamespace _ pre =>
    match brackets with
    | .declaration p _ :: outer => if p = pre then some outer else none
    | _ => none
  | _ => some brackets

/-- What is open after some events. -/
abbrev encloseAll (brackets : List Bracket) (es : List Event) : Option (List Bracket) := es.foldlM enclose brackets

/-- Tags and declarations pair up, and none stays open. -/
def PairsUp (es : List Event) : Prop := encloseAll [] es = some []

instance (es : List Event) : Decidable (PairsUp es) := inferInstanceAs (Decidable (_ = _))

/-- The event declares the namespace, or ends a declaration of it. -/
def belongs (uri : Text) (brackets : List Bracket) : Event → Bool
  | startNamespace _ _ u => u == uri
  | endNamespace .. =>
    match brackets with
    | .declaration _ u :: _ => u == uri
    | _ => false
  | _ => false

/-- Whether some event passes a test, given what is open before it. -/
def anyWithin (test : List Bracket → Event → Bool) (brackets : List Bracket) : List Event → Bool
  | [] => false
  | e :: es =>
    test brackets e || match enclose brackets e with
      | some inner => anyWithin test inner es
      | none => false

/-- The event declares a prefix inside of a declaration of it for the namespace, and for one that passes the test. -/
def hides (uri : Text) (test : Text → Bool) (brackets : List Bracket) : Event → Bool
  | startNamespace _ pre u => test u && brackets.contains (.declaration pre uri)
  | _ => false

/-- The event declares a prefix for another namespace, inside of a declaration of it for the given one. -/
def shadows (uri : Text) : List Bracket → Event → Bool := hides uri (· != uri)

/-- The event declares a prefix, inside of a declaration of it for the given namespace. -/
def redeclares (uri : Text) : List Bracket → Event → Bool := hides uri fun _ => true

/-! ## Dropping by prefixes -/

/-- The noted prefixes after an event; `add` notes the prefix of a declaration of the namespace. -/
def note (add : Text → List Text → List Text) (uri : Text) (noted : List Text) : Event → List Text
  | startNamespace _ pre u => if u == uri then add pre noted else noted
  | endNamespace _ pre => noted.erase pre
  | _ => noted

/-- The event declares the namespace, or ends a declaration of a noted prefix. -/
def isNoted (uri : Text) (noted : List Text) : Event → Bool
  | startNamespace _ _ u => u == uri
  | endNamespace _ pre => noted.contains pre
  | _ => false

/-- The events that remain when the noted ones are dropped. -/
def dropNoted (add : Text → List Text → List Text) (uri : Text) (noted : List Text) : List Event → List Event
  | [] => []
  | e :: es =>
    if isNoted uri noted e then dropNoted add uri (note add uri noted e) es
    else e :: dropNoted add uri (note add uri noted e) es

/-- An event is noted if and only if it belongs to the namespace: the ends that are dropped are those of the
declarations that are dropped. -/
def InPairs (add : Text → List Text → List Text) (uri : Text) (brackets : List Bracket) (noted : List Text) :
    List Event → Prop
  | [] => True
  | e :: es =>
    isNoted uri noted e = belongs uri brackets e ∧ match enclose brackets e with
      | some inner => InPairs add uri inner (note add uri noted e) es
      | none => True

variable {uri : Text} {brackets inner outer : List Bracket} {noted : List Text} {e : Event} {es fs : List Event}
  {add : Text → List Text → List Text}

theorem encloseAll_cons_some (h : encloseAll brackets (e :: es) = some outer) :
    ∃ inner, enclose brackets e = some inner ∧ encloseAll inner es = some outer := by
  rw [encloseAll, List.foldlM_cons] at h
  exact Option.bind_eq_some_iff.1 h

theorem enclose_endTag {p : Position} {name : QName} (h : enclose brackets (endTag p name) = some inner) :
    brackets = .element name.qualified :: inner := by
  rw [enclose.eq_def] at h
  dsimp only at h
  split at h
  · simp only [Option.ite_none_right_eq_some, Option.some.injEq] at h
    rw [h.1, h.2]
  · cases h

theorem enclose_endNamespace {p : Position} {pre : Text} (h : enclose brackets (endNamespace p pre) = some inner) :
    ∃ u, brackets = .declaration pre u :: inner := by
  rw [enclose.eq_def] at h
  dsimp only at h
  split at h
  · rename_i u _
    simp only [Option.ite_none_right_eq_some, Option.some.injEq] at h
    exact ⟨u, by rw [h.1, h.2]⟩
  · cases h

theorem enclose_frame (h : enclose brackets e = some inner) (outer : List Bracket) :
    enclose (brackets ++ outer) e = some (inner ++ outer) := by
  cases e with
  | endTag p name =>
    rw [enclose_endTag h]
    exact if_pos rfl
  | endNamespace p pre =>
    obtain ⟨u, rfl⟩ := enclose_endNamespace h
    exact if_pos rfl
  | _ =>
    cases h
    rfl

theorem InPairs.next (h : InPairs add uri brackets noted (e :: es)) (step : enclose brackets e = some inner) :
    isNoted uri noted e = belongs uri brackets e ∧ InPairs add uri inner (note add uri noted e) es := by
  obtain ⟨here, rest⟩ := h
  rw [step] at rest
  exact ⟨here, rest⟩

theorem inPairs_cons (here : isNoted uri noted e = belongs uri brackets e) (step : enclose brackets e = some inner)
    (rest : InPairs add uri inner (note add uri noted e) es) : InPairs add uri brackets noted (e :: es) := by
  refine ⟨here, ?_⟩
  rw [step]
  exact rest

theorem anyWithin_cons {test : List Bracket → Event → Bool} (step : enclose brackets e = some inner) :
    anyWithin test brackets (e :: es) = (test brackets e || anyWithin test inner es) := by
  rw [anyWithin, step]

/-! ## What remains -/

theorem mem_of_mem_dropNoted {d : Event} (h : d ∈ dropNoted add uri noted es) : d ∈ es := by
  induction es generalizing noted with
  | nil => exact h
  | cons e es ih =>
    rw [dropNoted] at h
    split at h
    · exact List.mem_cons_of_mem e (ih h)
    · rcases List.mem_cons.1 h with rfl | h
      · exact List.mem_cons_self
      · exact List.mem_cons_of_mem e (ih h)

/-- The brackets that remain when the event belongs to the namespace. -/
theorem filter_enclose (uri : Text) (step : enclose brackets e = some inner) :
    if belongs uri brackets e then inner.filter (Bracket.isOther uri) = brackets.filter (Bracket.isOther uri)
    else enclose (brackets.filter (Bracket.isOther uri)) e = some (inner.filter (Bracket.isOther uri)) := by
  cases e with
  | startTag p name as =>
    cases step
    rfl
  | endTag p name =>
    rw [enclose_endTag step]
    exact if_pos rfl
  | startNamespace p pre u =>
    cases step
    by_cases own : u = uri
    · simp [belongs, own, Bracket.isOther]
    · simp [belongs, own, List.filter_cons, Bracket.isOther, enclose]
  | endNamespace p pre =>
    obtain ⟨u, rfl⟩ := enclose_endNamespace step
    by_cases own : u = uri
    · simp [belongs, own, Bracket.isOther]
    · simp [belongs, own, List.filter_cons, Bracket.isOther, enclose]
  | _ =>
    cases step
    rfl

/-- **What remains pairs up**, if the right ends are dropped. -/
theorem enclose_dropNoted (inPairs : InPairs add uri brackets noted es) (h : encloseAll brackets es = some outer) :
    encloseAll (brackets.filter (Bracket.isOther uri)) (dropNoted add uri noted es) =
      some (outer.filter (Bracket.isOther uri)) := by
  induction es generalizing brackets noted with
  | nil =>
    cases h
    rfl
  | cons e es ih =>
    obtain ⟨inner, step, rest⟩ := encloseAll_cons_some h
    obtain ⟨here, inPairs⟩ := inPairs.next step
    have remains := filter_enclose uri step
    rw [dropNoted, here]
    split
    · rename_i own
      rw [if_pos own] at remains
      rw [← remains]
      exact ih inPairs rest
    · rename_i other
      rw [if_neg other] at remains
      rw [encloseAll, List.foldlM_cons, remains]
      exact ih inPairs rest

theorem pairsUp_dropNoted (inPairs : InPairs add uri [] [] es) (h : PairsUp es) :
    PairsUp (dropNoted add uri [] es) := enclose_dropNoted inPairs h

/-! ## Hidden declarations -/

/-- The inner bracket declares the prefix of the outer one, which declares the namespace. -/
def HiddenBy (uri : Text) (test : Text → Bool) (inner outer : Bracket) : Prop :=
  ∃ pre u, test u = true ∧ inner = .declaration pre u ∧ outer = .declaration pre uri

variable {test : Text → Bool}

/-- No open declaration of the namespace is hidden by another one. -/
abbrev Clear (uri : Text) (test : Text → Bool) (brackets : List Bracket) : Prop :=
  brackets.Pairwise (¬ HiddenBy uri test · ·)

theorem clear_element {name : Text} (h : Clear uri test brackets) : Clear uri test (.element name :: brackets) :=
  .cons (fun _ _ ⟨_, _, _, element, _⟩ => nomatch element) h

theorem clear_declaration {pre u : Text} :
    Clear uri test (.declaration pre u :: brackets) ↔
      Clear uri test brackets ∧ (test u = true → .declaration pre uri ∉ brackets) := by
  rw [Clear, List.pairwise_cons]
  constructor
  · rintro ⟨first, rest⟩
    exact ⟨rest, fun passes member => first _ member ⟨pre, u, passes, rfl, rfl⟩⟩
  · rintro ⟨rest, first⟩
    refine ⟨?_, rest⟩
    rintro _ member ⟨pre', u', passes, same, rfl⟩
    cases same
    exact first passes member

/-- Nothing becomes hidden but by an event that hides. -/
theorem Clear.next (h : Clear uri test brackets) (first : hides uri test brackets e = false)
    (step : enclose brackets e = some inner) : Clear uri test inner := by
  cases e with
  | startTag =>
    cases step
    exact clear_element h
  | endTag =>
    rw [enclose_endTag step] at h
    exact h.of_cons
  | startNamespace p pre u =>
    cases step
    refine clear_declaration.2 ⟨h, fun passes member => ?_⟩
    simp [hides, passes, member] at first
  | endNamespace =>
    obtain ⟨u, rfl⟩ := enclose_endNamespace step
    exact h.of_cons
  | _ =>
    cases step
    exact h

/-- An event after which nothing is hidden hides nothing. -/
theorem Clear.hides (h : Clear uri test inner) (step : enclose brackets e = some inner) : hides uri test brackets e = false := by
  cases e with
  | startNamespace p pre u =>
    cases step
    have absent := (clear_declaration.1 h).2
    cases passes : test u with
    | false => simp [Event.hides, passes]
    | true => simp [Event.hides, passes, absent passes]
  | _ => rfl

/-! ## Each declaration noted by itself -/

/-- As often as a prefix is noted, a declaration of it is open. -/
def Tallies (uri : Text) (brackets : List Bracket) (noted : List Text) : Prop :=
  ∀ pre, noted.count pre = brackets.count (.declaration pre uri)

theorem Tallies.mem_iff (h : Tallies uri brackets noted) (pre : Text) :
    pre ∈ noted ↔ .declaration pre uri ∈ brackets := by
  rw [← List.count_pos_iff, ← List.count_pos_iff, h pre]

/-- If the right event is dropped, the tally stays right. -/
theorem Tallies.next (h : Tallies uri brackets noted) (here : isNoted uri noted e = belongs uri brackets e)
    (step : enclose brackets e = some inner) : Tallies uri inner (note List.cons uri noted e) := by
  intro pre
  cases e with
  | startTag =>
    cases step
    simpa [note] using h pre
  | endTag =>
    rw [enclose_endTag step] at h
    simpa [note] using h pre
  | startNamespace p pre' u =>
    cases step
    by_cases own : u = uri
    · simp [note, own, List.count_cons, h pre]
    · simp [note, own, h pre]
  | endNamespace p pre' =>
    obtain ⟨u, rfl⟩ := enclose_endNamespace step
    have before := h pre
    simp only [isNoted, belongs, List.contains_eq_mem] at here
    simp only [note, List.count_erase]
    by_cases own : u = uri
    · subst own
      simp only [List.count_cons, beq_iff_eq, Bracket.declaration.injEq, and_true] at before
      simp only [beq_iff_eq]
      split at before <;> simp_all
    · have absent : pre' ∉ noted := by simpa [beq_eq_false_iff_ne.2 own] using here
      simp only [List.count_cons, beq_iff_eq, Bracket.declaration.injEq, own, and_false, if_false, Nat.add_zero] at before
      rw [← before]
      split
      · rename_i same
        have none : noted.count pre = 0 := List.count_eq_zero.2 fun member => absent (by rwa [beq_iff_eq.1 same])
        omega
      · rfl
  | _ =>
    cases step
    exact h pre

/-- The end of a declaration that shadows another one would be dropped. -/
theorem clear_of_inPairs_cons (tallies : Tallies uri brackets noted) (inPairs : InPairs List.cons uri brackets noted es)
    (h : encloseAll brackets es = some []) :
    Clear uri (· != uri) brackets ∧ anyWithin (shadows uri) brackets es = false := by
  induction es generalizing brackets noted with
  | nil =>
    cases h
    exact ⟨.nil, rfl⟩
  | cons e es ih =>
    obtain ⟨inner, step, rest⟩ := encloseAll_cons_some h
    obtain ⟨here, inPairs⟩ := inPairs.next step
    obtain ⟨after, none⟩ := ih (tallies.next here step) inPairs rest
    rw [anyWithin_cons step, none, Bool.or_false]
    refine ⟨?_, after.hides step⟩
    cases e with
    | startTag | startNamespace =>
      cases step
      exact after.of_cons
    | endTag p name =>
      rw [enclose_endTag step]
      exact clear_element after
    | endNamespace p pre =>
      obtain ⟨u, rfl⟩ := enclose_endNamespace step
      refine clear_declaration.2 ⟨after, fun other member => ?_⟩
      have absent : pre ∉ noted := by simpa [isNoted, belongs, beq_eq_false_iff_ne.2 (bne_iff_ne.1 other)] using here
      exact absent ((tallies.mem_iff pre).2 (List.mem_cons_of_mem _ member))
    | _ =>
      cases step
      exact after

theorem inPairs_cons_of_clear (tallies : Tallies uri brackets noted) (clear : Clear uri (· != uri) brackets)
    (none : anyWithin (shadows uri) brackets es = false) (h : encloseAll brackets es = some outer) :
    InPairs List.cons uri brackets noted es := by
  induction es generalizing brackets noted with
  | nil => trivial
  | cons e es ih =>
    obtain ⟨inner, step, rest⟩ := encloseAll_cons_some h
    rw [anyWithin_cons step, Bool.or_eq_false_iff] at none
    have here : isNoted uri noted e = belongs uri brackets e := by
      cases e with
      | endNamespace p pre =>
        obtain ⟨u, rfl⟩ := enclose_endNamespace step
        have noted := tallies.mem_iff pre
        by_cases own : u = uri
        · simp [isNoted, belongs, own, noted]
        · have absent := (clear_declaration.1 clear).2 (bne_iff_ne.2 own)
          simp [isNoted, belongs, own, Ne.symm own, noted, absent]
      | _ => rfl
    exact inPairs_cons here step (ih (tallies.next here step) (clear.next none.1 step) none.2 rest)

/-- **With each declaration noted by itself, the right ends are dropped if and only if no declaration of the namespace
is shadowed.** -/
theorem inPairs_cons_iff (uri : Text) (h : PairsUp es) :
    InPairs List.cons uri [] [] es ↔ anyWithin (shadows uri) [] es = false :=
  ⟨fun inPairs => (clear_of_inPairs_cons (fun _ => rfl) inPairs h).2,
    fun none => inPairs_cons_of_clear (fun _ => rfl) .nil none h⟩

/-! ## Each prefix noted once -/

/-- The noted prefixes differ, and declarations of them are open. -/
structure Sparse (uri : Text) (brackets : List Bracket) (noted : List Text) : Prop where
  nodup : noted.Nodup
  isOpen : ∀ pre ∈ noted, .declaration pre uri ∈ brackets

theorem Sparse.next (h : Sparse uri brackets noted) (step : enclose brackets e = some inner) :
    Sparse uri inner (note List.insert uri noted e) := by
  cases e with
  | startTag =>
    cases step
    exact ⟨h.nodup, fun pre member => List.mem_cons_of_mem _ (h.isOpen pre member)⟩
  | endTag =>
    have isOpen := h.isOpen
    rw [enclose_endTag step] at isOpen
    exact ⟨h.nodup, fun pre member => by simpa using isOpen pre member⟩
  | startNamespace p pre u =>
    cases step
    by_cases own : u = uri
    · subst own
      simp only [note, beq_self_eq_true, if_true]
      refine ⟨List.Nodup.insert h.nodup, fun pre' member => ?_⟩
      rcases List.mem_insert_iff.1 member with rfl | member
      · exact List.mem_cons_self
      · exact List.mem_cons_of_mem _ (h.isOpen pre' member)
    · simp only [note, beq_iff_eq, own, if_false]
      exact ⟨h.nodup, fun pre' member => List.mem_cons_of_mem _ (h.isOpen pre' member)⟩
  | endNamespace p pre =>
    obtain ⟨u, rfl⟩ := enclose_endNamespace step
    refine ⟨h.nodup.erase pre, fun pre' member => ?_⟩
    obtain ⟨other, member⟩ := h.nodup.mem_erase_iff.1 member
    simpa [other] using h.isOpen pre' member
  | _ =>
    cases step
    exact h

/-- The end of an inner declaration of a prefix would be taken for that of the outer one, or the outer one would be left
without its end. -/
theorem clear_of_inPairs_insert (sparse : Sparse uri brackets noted)
    (inPairs : InPairs List.insert uri brackets noted es) (h : encloseAll brackets es = some []) :
    (Clear uri (fun _ => true) brackets ∧ ∀ pre, .declaration pre uri ∈ brackets → pre ∈ noted) ∧
      anyWithin (redeclares uri) brackets es = false := by
  induction es generalizing brackets noted with
  | nil =>
    cases h
    exact ⟨⟨.nil, nofun⟩, rfl⟩
  | cons e es ih =>
    obtain ⟨inner, step, rest⟩ := encloseAll_cons_some h
    obtain ⟨here, inPairs⟩ := inPairs.next step
    obtain ⟨⟨after, covered⟩, none⟩ := ih (sparse.next step) inPairs rest
    rw [anyWithin_cons step, none, Bool.or_false]
    refine ⟨?_, after.hides step⟩
    cases e with
    | startTag =>
      cases step
      exact ⟨after.of_cons, fun pre member => covered pre (List.mem_cons_of_mem _ member)⟩
    | endTag p name =>
      rw [enclose_endTag step]
      exact ⟨clear_element after, fun pre member => covered pre (by simpa using member)⟩
    | startNamespace p pre u =>
      cases step
      obtain ⟨clear, absent⟩ := clear_declaration.1 after
      refine ⟨clear, fun pre' member => ?_⟩
      have noted := covered pre' (List.mem_cons_of_mem _ member)
      by_cases own : u = uri
      · simp only [note, own, beq_self_eq_true, if_true, List.mem_insert_iff] at noted
        exact noted.resolve_left fun same => absent rfl (same ▸ member)
      · simpa [note, own] using noted
    | endNamespace p pre =>
      obtain ⟨u, rfl⟩ := enclose_endNamespace step
      -- the prefix is not noted any more, so no other declaration of it is open
      have gone : pre ∉ noted.erase pre := fun member => (sparse.nodup.mem_erase_iff.1 member).1 rfl
      refine ⟨clear_declaration.2 ⟨after, fun _ member => gone (covered pre member)⟩, fun pre' member => ?_⟩
      rcases List.mem_cons.1 member with same | member
      · cases same
        simpa [isNoted, belongs] using here
      · exact List.mem_of_mem_erase (covered pre' member)
    | _ =>
      cases step
      exact ⟨after, covered⟩

/-- Prefixes that are not declared again are noted once in either way. -/
theorem inPairs_insert_of_cons (tallies : Tallies uri brackets noted) (none : anyWithin (redeclares uri) brackets es = false)
    (inPairs : InPairs List.cons uri brackets noted es) (h : encloseAll brackets es = some outer) :
    InPairs List.insert uri brackets noted es := by
  induction es generalizing brackets noted with
  | nil => trivial
  | cons e es ih =>
    obtain ⟨inner, step, rest⟩ := encloseAll_cons_some h
    obtain ⟨here, inPairs⟩ := inPairs.next step
    rw [anyWithin_cons step, Bool.or_eq_false_iff] at none
    have same : note List.insert uri noted e = note List.cons uri noted e := by
      cases e with
      | startNamespace p pre u =>
        have absent : pre ∉ noted := by simpa [redeclares, hides, ← tallies.mem_iff] using none.1
        simp only [note, List.insert_of_not_mem absent]
      | _ => rfl
    refine inPairs_cons here step ?_
    rw [same]
    exact ih (tallies.next here step) none.2 inPairs rest

/-- What shadows a declaration declares its prefix again. -/
theorem anyWithin_shadows (none : anyWithin (redeclares uri) brackets es = false) :
    anyWithin (shadows uri) brackets es = false := by
  induction es generalizing brackets with
  | nil => rfl
  | cons e es ih =>
    rw [anyWithin, Bool.or_eq_false_iff] at none ⊢
    refine ⟨?_, ?_⟩
    · cases e with
      | startNamespace p pre u =>
        have absent : brackets.contains (.declaration pre uri) = false := none.1
        simp only [shadows, hides, absent, Bool.and_false]
      | _ => rfl
    · cases step : enclose brackets e with
      | none => rfl
      | some inner =>
        rw [step] at none
        exact ih none.2

/-- **With each prefix noted once, the right ends are dropped if and only if no prefix of the namespace is declared
again.** -/
theorem inPairs_insert_iff (uri : Text) (h : PairsUp es) :
    InPairs List.insert uri [] [] es ↔ anyWithin (redeclares uri) [] es = false := by
  refine ⟨fun inPairs => (clear_of_inPairs_insert ⟨.nil, nofun⟩ inPairs h).2, fun none => ?_⟩
  exact inPairs_insert_of_cons (fun _ => rfl) none ((inPairs_cons_iff uri h).2 (anyWithin_shadows none)) h

/-! ## Prefixes that are declared once -/

/-- The prefixes that are declared, in order. -/
def prefixesOf (es : List Event) : List Text :=
  es.filterMap fun
    | startNamespace _ pre _ => some pre
    | _ => none

/-- What is open after an event was open before it, or is declared by it. -/
theorem mem_enclose {b : Bracket} (step : enclose brackets e = some inner) (h : b ∈ inner) :
    b ∈ brackets ∨ (∃ name, b = .element name) ∨ ∃ pre u, b = .declaration pre u ∧ prefixesOf [e] = [pre] := by
  cases e with
  | startTag p name as =>
    cases step
    exact (List.mem_cons.1 h).elim (fun same => .inr (.inl ⟨_, same⟩)) .inl
  | endTag p name =>
    rw [enclose_endTag step]
    exact .inl (List.mem_cons_of_mem _ h)
  | startNamespace p pre u =>
    cases step
    exact (List.mem_cons.1 h).elim (fun same => .inr (.inr ⟨pre, u, same, rfl⟩)) .inl
  | endNamespace p pre =>
    obtain ⟨u, rfl⟩ := enclose_endNamespace step
    exact .inl (List.mem_cons_of_mem _ h)
  | _ =>
    cases step
    exact .inl h

/-- A prefix that is declared once is not declared again. -/
theorem redeclares_of_nodup (apart : ∀ pre u, .declaration pre u ∈ brackets → pre ∉ prefixesOf es)
    (nodup : (prefixesOf es).Nodup) : anyWithin (redeclares uri) brackets es = false := by
  induction es generalizing brackets with
  | nil => rfl
  | cons e es ih =>
    have split : prefixesOf (e :: es) = prefixesOf [e] ++ prefixesOf es := List.filterMap_append (l := [e])
    rw [split] at apart nodup
    rw [anyWithin, Bool.or_eq_false_iff]
    refine ⟨?_, ?_⟩
    · cases e with
      | startNamespace p pre u =>
        have absent : .declaration pre uri ∉ brackets := fun member => apart pre uri member (by simp [prefixesOf])
        simp [redeclares, hides, absent]
      | _ => rfl
    · cases step : enclose brackets e with
      | none => rfl
      | some inner =>
        refine ih (fun pre u member later => ?_) (List.nodup_append.1 nodup).2.1
        rcases mem_enclose step member with before | ⟨name, element⟩ | ⟨pre', u', same, declares⟩
        · exact apart pre u before (List.mem_append_right _ later)
        · cases element
        · cases same
          exact (List.nodup_append.1 nodup).2.2 pre (declares ▸ List.mem_singleton_self pre) pre later rfl

end Event

end Stencil
