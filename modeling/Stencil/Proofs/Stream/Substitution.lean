import Stencil.Proofs.Document.Part
import Stencil.Proofs.Stream.Run

/-!
# Chains of substitutions

Each filter of a chain keeps its own stack of open elements, swallows what it matches, and sees what the
filters before it have left. All together they replace the outermost elements that lie on one of the
paths, and the first filter whose path an element lies on decides what takes its place
(`Part.substituted`, `Stream.filtered_substitutes`). The events of a replaced element are kept in the event
that replaces it, so the stream can be put together again (`Event.restoredAll`).
-/

namespace Stencil

/-- A filter that substitutes elements: where they are, and the body that replaces them. -/
structure Rule where
  path : Path
  body : BodyId

def Rule.filter (r : Rule) : Filter := .substitute r.path r.body

/-! ## What a chain comes to -/

namespace Part

mutual

/-- A part after the elements on the paths of some rules have been substituted; the elements it stands in
are listed from the inside out. In a replaced element, only the rules before the one that replaces it have
had their turn. -/
def substituted (rs : List Rule) (openElements : List Event) : Part → Part
  | element p name as children q endName =>
    let openElements := .startTag p name as :: openElements
    match rs.find? (·.path.accepts openElements) with
    | some r =>
      let earlier := rs.takeWhile (!·.path.accepts openElements)
      let matched := events (element p name as (substitutedAll earlier openElements children) q endName)
      leaf (Stream.substitution p r.body matched) rfl rfl
    | none => element p name as (substitutedAll rs openElements children) q endName
  | leaf e noStart noEnd => leaf e noStart noEnd

def substitutedAll (rs : List Rule) (openElements : List Event) : List Part → List Part
  | [] => []
  | n :: ns => n.substituted rs openElements :: substitutedAll rs openElements ns

end

end Part

namespace Event

/-- The event stands for a matched element. -/
def isSubstitution : Event → Bool
  | sub _ [.expand ..] [] => true
  | _ => false

mutual

/-- The events of a matched element instead of the event that stands for it. -/
def restored : Event → List Event
  | sub _ [.expand _ matched] [] => restoredAll matched
  | e => [e]

def restoredAll : List Event → List Event
  | [] => []
  | e :: es => e.restored ++ restoredAll es

end

end Event

namespace Part

variable {rs : List Rule} {r : Rule} {openElements : List Event}

mutual

theorem substituted_nil (n : Part) (openElements : List Event) : n.substituted [] openElements = n := by
  cases n with
  | element p name as children q endName => simp [substituted, substitutedAll_nil children]
  | leaf e noStart noEnd => rfl

theorem substitutedAll_nil (ns : List Part) (openElements : List Event) : substitutedAll [] openElements ns = ns := by
  cases ns with
  | nil => rfl
  | cons n ns => simp [substitutedAll, substituted_nil n, substitutedAll_nil ns]

end

mutual

/-- The first rule may have its turn before all others. -/
theorem substituted_cons (n : Part) (r : Rule) (rs : List Rule) (openElements : List Event) :
    (n.substituted [r] openElements).substituted rs openElements = n.substituted (r :: rs) openElements := by
  cases n with
  | leaf e noStart noEnd => rfl
  | element p name as children q endName =>
    by_cases first : r.path.accepts (.startTag p name as :: openElements) = true
    · simp [substituted, first, substitutedAll_nil]
    · simp only [Bool.not_eq_true] at first
      cases other : rs.find? (·.path.accepts (.startTag p name as :: openElements)) with
      | none => simp [substituted, first, other, substitutedAll_cons children]
      | some r' => simp [substituted, first, other, substitutedAll_cons children]

theorem substitutedAll_cons (ns : List Part) (r : Rule) (rs : List Rule) (openElements : List Event) :
    substitutedAll rs openElements (substitutedAll [r] openElements ns) = substitutedAll (r :: rs) openElements ns := by
  cases ns with
  | nil => rfl
  | cons n ns => simp [substitutedAll, substituted_cons n, substitutedAll_cons ns]

end

end Part

namespace Event

theorem restoredAll_append (es fs : List Event) : restoredAll (es ++ fs) = restoredAll es ++ restoredAll fs := by
  induction es with
  | nil => rfl
  | cons e es ih => simp [restoredAll, ih]

theorem restoredAll_of_plain {es : List Event} (plain : ∀ e ∈ es, e.isSubstitution = false) : restoredAll es = es := by
  induction es with
  | nil => rfl
  | cons e es ih =>
    simp only [List.mem_cons, forall_eq_or_imp] at plain
    have first : e.restored = [e] := by
      unfold restored
      split
      · simp [isSubstitution] at plain
      · rfl
    simp [restoredAll, first, ih plain.2]

end Event

namespace Part

mutual

/-- Nothing is lost by a substitution, as what it replaces is kept. -/
theorem restored_substituted (n : Part) (rs : List Rule) (openElements : List Event) :
    Event.restoredAll (n.substituted rs openElements).events = Event.restoredAll n.events := by
  cases n with
  | leaf e noStart noEnd => rfl
  | element p name as children q endName =>
    have inside := restored_substitutedAll children
    rw [substituted]
    split <;> simp [events, Event.restoredAll, Event.restored, Event.restoredAll_append, inside, Stream.substitution]

theorem restored_substitutedAll (ns : List Part) (rs : List Rule) (openElements : List Event) :
    Event.restoredAll (eventsOf (substitutedAll rs openElements ns)) = Event.restoredAll (eventsOf ns) := by
  cases ns with
  | nil => rfl
  | cons n ns =>
    simp [substitutedAll, eventsOf, Event.restoredAll_append, restored_substituted n, restored_substitutedAll ns]

end

end Part

/-! ## What a filter does -/

namespace Stream

variable {k : Nat} {u w : Stream} {s r : Store}

/-- A run can be cut between two of its events. -/
theorem Run.split {es fs : List Event} (h : Run k u s (es ++ fs) w r) :
    ∃ v t, Run k u s es v t ∧ Run k v t fs w r := by
  induction es generalizing u s with
  | nil => exact ⟨u, s, .refl u s, h⟩
  | cons e es ih =>
    obtain ⟨u', s', v, t, before, yields, after⟩ := Run.head h
    obtain ⟨v', t', first, second⟩ := ih after
    exact ⟨v', t', before.trans (.yield yields first), second⟩

variable {path : Path} {body : BodyId} {openElements : List Event}

theorem Run.substituted_silent (h : Run k u s [] w r) :
    Run k (.substituted path body openElements u) s [] (.substituted path body openElements w) r :=
  h.through (.substituted path body openElements)

theorem Run.matching_silent {p : Position} {depth : Nat} {matched : List Event} (h : Run k u s [] w r) :
    Run k (.matching path body openElements p depth matched u) s []
      (.matching path body openElements p depth matched w) r :=
  h.through (.matching path body openElements p depth matched)

/-- Inside of a matched element, all events are read. -/
theorem run_matching {p : Position} {es : List Event} {d d' : Nat} {matched : List Event}
    (inside : es.foldlM Event.nest d = some d') (h : Run k u s es w r) :
    Run k (.matching path body openElements p (d + 1) matched u) s []
      (.matching path body openElements p (d' + 1) (es.reverse ++ matched) w) r := by
  induction es generalizing u s d matched with
  | nil =>
    cases inside
    exact h.matching_silent
  | cons e es ih =>
    obtain ⟨u', s', v, t, before, yields, after⟩ := Run.head h
    simp only [List.foldlM_cons, Option.bind_eq_bind, Option.bind_eq_some_iff] at inside
    obtain ⟨mid, nests, inside⟩ := inside
    have reads : step k (.matching path body openElements p (d + 1) matched u') s' =
        .skip (.matching path body openElements p (mid + 1) (e :: matched) v) t := by
      have depth : (if e.isStart then d + 1 + 1 else if e.isEnd then d + 1 - 1 else d + 1) = mid + 1 := by
        cases e <;> simp_all [Event.nest, Event.isStart, Event.isEnd]
        omega
      simp only [step, stepMatching, yields, depth]
      simp
    rw [List.reverse_cons, List.append_assoc]
    exact before.matching_silent.trans ((Run.silent reads).trans (ih inside after))

mutual

theorem run_part (n : Part) {u w : Stream} {s r : Store} {openElements : List Event} (h : Run k u s n.events w r) :
    Run k (.substituted path body openElements u) s (n.substituted [⟨path, body⟩] openElements).events
      (.substituted path body openElements w) r := by
  cases n with
  | leaf e noStart noEnd =>
    obtain ⟨u', s', v, t, before, yields, after⟩ := Run.head h
    have hands : step k (.substituted path body openElements u') s' = .yield e (.substituted path body openElements v) t := by
      simp [step, stepSubstituted, yields, noStart, noEnd]
    exact before.substituted_silent.trans (.yield hands after.substituted_silent)
  | element p name as children q endName =>
    obtain ⟨u₁, s₁, v₁, t₁, before, starts, rest⟩ := Run.head h
    obtain ⟨v₂, t₂, inside, rest⟩ := rest.split
    obtain ⟨v₃, t₃, v₄, t₄, between, ends, after⟩ := Run.head rest
    by_cases matched : path.accepts (.startTag p name as :: openElements) = true
    · -- the element is read up to its end tag, which brings the depth back to 0
      have takes : step k (.substituted path body openElements u₁) s₁ =
          .skip (.matching path body openElements p 1 [.startTag p name as] v₁) t₁ := by
        simp [step, stepSubstituted, starts, Event.isStart, matched, Event.position]
      have reads : Run k (.matching path body openElements p 1 [.startTag p name as] v₁) t₁ []
          (.matching path body openElements p 1 ((Part.eventsOf children).reverse ++ [.startTag p name as]) v₃) t₃ :=
        (run_matching (Part.nest_eventsOf children 0) inside).trans between.matching_silent
      have gives : step k (.matching path body openElements p 1
            ((Part.eventsOf children).reverse ++ [.startTag p name as]) v₃) t₃ =
          .yield (substitution p body (Part.element p name as children q endName).events)
            (.substituted path body openElements v₄) t₄ := by
        simp [step, stepMatching, ends, Event.isStart, Event.isEnd, Part.events]
      have whole : ((Part.element p name as children q endName).substituted [⟨path, body⟩] openElements).events =
          [substitution p body (Part.element p name as children q endName).events] := by
        simp [Part.substituted, matched, Part.substitutedAll_nil, Part.events]
      rw [whole]
      exact before.substituted_silent.trans
        (.skip takes (reads.trans (.yield gives after.substituted_silent)))
    · have hands : step k (.substituted path body openElements u₁) s₁ =
          .yield (.startTag p name as) (.substituted path body (.startTag p name as :: openElements) v₁) t₁ := by
        simp [step, stepSubstituted, starts, Event.isStart, matched]
      have leaves : step k (.substituted path body (.startTag p name as :: openElements) v₃) t₃ =
          .yield (.endTag q endName) (.substituted path body openElements v₄) t₄ := by
        simp [step, stepSubstituted, ends, Event.isStart, Event.isEnd]
      have whole : ((Part.element p name as children q endName).substituted [⟨path, body⟩] openElements).events =
          .startTag p name as :: (Part.eventsOf (Part.substitutedAll [⟨path, body⟩]
            (.startTag p name as :: openElements) children) ++ [.endTag q endName]) := by
        simp [Part.substituted, matched, Part.events]
      rw [whole]
      exact before.substituted_silent.trans (.yield hands ((run_parts children inside).trans
        (between.substituted_silent.trans (.yield leaves after.substituted_silent))))

/-- **What one filter does**: it replaces the outermost elements on its path. -/
theorem run_parts (ns : List Part) {u w : Stream} {s r : Store} {openElements : List Event}
    (h : Run k u s (Part.eventsOf ns) w r) :
    Run k (.substituted path body openElements u) s
      (Part.eventsOf (Part.substitutedAll [⟨path, body⟩] openElements ns)) (.substituted path body openElements w) r := by
  cases ns with
  | nil => exact Run.substituted_silent h
  | cons n ns =>
    obtain ⟨v, t, first, rest⟩ := Run.split h
    exact (run_part n first).trans (run_parts ns rest)

end

/-! ## What a chain of filters does -/

theorem completes_substituted (rule : Rule) {ns : List Part} (h : Completes k u s (Part.eventsOf ns) none w r) :
    ∃ w', Completes k (rule.filter.apply u) s (Part.eventsOf (Part.substitutedAll [rule] [] ns)) none w' r := by
  obtain ⟨v, t, run, last⟩ := h
  refine ⟨.substituted rule.path rule.body [] w, _, t, run_parts ns run, ?_⟩
  simp [step, stepSubstituted, last, final, Advance.map]

theorem completes_filtered (rs : List Rule) {ns : List Part} (h : Completes k u s (Part.eventsOf ns) none w r) :
    ∃ w', Completes k (u.filtered (rs.map Rule.filter)) s (Part.eventsOf (Part.substitutedAll rs [] ns)) none w' r := by
  induction rs generalizing u w ns with
  | nil =>
    rw [Part.substitutedAll_nil]
    exact ⟨w, h⟩
  | cons rule rs ih =>
    obtain ⟨w', first⟩ := completes_substituted rule h
    rw [← Part.substitutedAll_cons]
    exact ih first

/-- **A chain of substitutions replaces the outermost elements on its paths, and the first rule wins.** For a
stream that comes to its end and whose tags pair up, the chain delivers what `Part.substitutedAll` makes of its
forest and has the same effect on the store; the replaced elements put back, this is the stream again. -/
theorem filtered_substitutes (rs : List Rule) (u : Stream) (s : Store) (fuel : Nat)
    (ends : (u.collect fuel none s).stop? = none) (nested : Event.Nested (u.collect fuel none s).events) :
    (∃ ns, Part.eventsOf ns = (u.collect fuel none s).events) ∧
      ∀ ns, Part.eventsOf ns = (u.collect fuel none s).events →
        ∃ enough, ∀ more, enough ≤ more →
          let result := (u.filtered (rs.map Rule.filter)).collect more none s
          result.stop? = none ∧ result.store = (u.collect fuel none s).store ∧
            result.events = Part.eventsOf (Part.substitutedAll rs [] ns) ∧
            Event.restoredAll result.events = Event.restoredAll (u.collect fuel none s).events ∧
            ((∀ e ∈ (u.collect fuel none s).events, e.isSubstitution = false) →
              Event.restoredAll result.events = (u.collect fuel none s).events) := by
  refine ⟨Part.nested_iff_parts.1 nested, fun ns events => ?_⟩
  have completes : Completes fuel u s _ _ _ _ := completes_of_collect (by simp [ends])
  rw [ends, ← events] at completes
  obtain ⟨w', chain⟩ := completes_filtered rs completes
  obtain ⟨enough, collects⟩ := collect_of_completes (by simp) chain
  refine ⟨enough, fun more large => ?_⟩
  have restored : Event.restoredAll (Part.eventsOf (Part.substitutedAll rs [] ns)) =
      Event.restoredAll (u.collect fuel none s).events := by
    rw [Part.restored_substitutedAll, events]
  rw [collects more large]
  exact ⟨rfl, rfl, rfl, restored, fun plain => restored.trans (Event.restoredAll_of_plain plain)⟩

/-- The elements of a name. -/
def named (name : Text) : Path := ⟨name, [⟨false, [⟨.child, .element name, none⟩]⟩]⟩

/-- An element of one position, as a part. -/
def elementOf (name : Text) (children : List Part) : Part :=
  .element ⟨1, 0⟩ (.plain name) [] children ⟨2, 0⟩ (.plain name)

/-- The inner element is substituted first, and kept so in the outer one; the last rule comes too late. -/
theorem filtered_substitutes_overlapping :
    let rs : List Rule := [⟨named "c", ⟨0, 0⟩⟩, ⟨named "b", ⟨0, 1⟩⟩, ⟨named "b", ⟨0, 2⟩⟩]
    let u : Stream := .ofEvents (Part.events
      (elementOf "a" [elementOf "b" [elementOf "c" [], .leaf (.text ⟨1, 5⟩ "B") rfl rfl], elementOf "c" []]))
    let c := substitution ⟨1, 0⟩ ⟨0, 0⟩ [.startTag ⟨1, 0⟩ (.plain "c") [], .endTag ⟨2, 0⟩ (.plain "c")]
    let b := substitution ⟨1, 0⟩ ⟨0, 1⟩
      [.startTag ⟨1, 0⟩ (.plain "b") [], c, .text ⟨1, 5⟩ "B", .endTag ⟨2, 0⟩ (.plain "b")]
    let s := Store.ofContext (.ofBase []) (.empty [])
    ∃ enough, ∀ more, enough ≤ more → ((u.filtered (rs.map Rule.filter)).collect more none s).events =
      [.startTag ⟨1, 0⟩ (.plain "a") [], b, c, .endTag ⟨2, 0⟩ (.plain "a")] := by
  intro rs u c b s
  obtain ⟨-, all⟩ := filtered_substitutes rs u s 20 rfl (by decide)
  obtain ⟨enough, chain⟩ := all
    [elementOf "a" [elementOf "b" [elementOf "c" [], .leaf (.text ⟨1, 5⟩ "B") rfl rfl], elementOf "c" []]] rfl
  exact ⟨enough, fun more large => (chain more large).2.2.1.trans rfl⟩

end Stream
end Stencil
