import Stencil.Proofs.Document.Part
import Stencil.Proofs.Template.Capture
import Stencil.Proofs.Template.Structured

/-!
# Directives on one element

`content`, `attrs` and `strip` on one element are streams around each other, the one of `strip` the inmost.
Each of them takes the first event that it gets for the tag of the element. So they are what one expects of
them as long as `strip` is not among them; with it, the other two get what is in the element instead of the
element, and `Composition.applied_as_specified` says for which elements that does not matter.
-/

namespace Stencil

/-- The directives among `content`, `attrs` and `strip` that an element carries; the last one without a test. -/
structure Composition where
  content? : Option Expression
  attributes? : Option Expression
  strips : Bool

namespace Composition

/-- The directives in the order of their rank. -/
def directives (c : Composition) : List Directive :=
  (c.content?.map Directive.content).toList ++ ((c.attributes?.map Directive.attributes).toList ++
    if c.strips then [Directive.strip none] else [])

/-- The stream of an element, its directives still to be applied. -/
def applied (c : Composition) (es : List Event) : Stream := .directed c.directives.reverse [] (.ofEvents es)

/-- What the mapping of `attrs` makes of attributes, whichever they are. -/
structure Merges (c : Composition) (k : Nat) (s : Store) (merge : Attributes → Attributes) : Prop where
  absent : c.attributes? = none → merge = id
  present : ∀ x, c.attributes? = some x → ∃ v t, x.eval k s = .ok (v, t) ∧
    if v.isTrue = true then ∀ as : Attributes, as.merge v = .ok (merge as) else merge = id

/-! ## What the streams deliver -/

/-- The attributes of the first event are changed if it is a start tag. -/
def firstMerged (merge : Attributes → Attributes) : List Event → List Event
  | .startTag p name as :: es => .startTag p name (merge as) :: es
  | es => es

/-- What the directives make of events, one after the other. -/
def result (c : Composition) (merge : Attributes → Attributes) (es : List Event) : List Event :=
  let merged := firstMerged merge (if c.strips then Directive.inside es else es)
  match c.content? with
  | none => merged
  | some x => Directive.filled x merged

variable {c : Composition} {k : Nat} {s : Store} {merge : Attributes → Attributes}

theorem firstMerged_id (es : List Event) : firstMerged id es = es := by
  cases es with
  | nil => rfl
  | cons e es => cases e <;> rfl

theorem events_mergedWith {x : Expression} {v : Value} {t : Store} (value : x.eval k s = .ok (v, t))
    (merges : if v.isTrue = true then ∀ as : Attributes, as.merge v = .ok (merge as) else merge = id) (ps : List Piece) :
    ∃ qs r, Piece.mergedWith k x ps s = .ok (qs, r) ∧ qs.map (·.event) = firstMerged merge (ps.map (·.event)) := by
  have others {ps : List Piece} (asIs : Piece.mergedWith k x ps = pure ps)
      (same : firstMerged merge (ps.map (·.event)) = ps.map (·.event)) :
      ∃ qs r, Piece.mergedWith k x ps s = .ok (qs, r) ∧ qs.map (·.event) = firstMerged merge (ps.map (·.event)) :=
    ⟨ps, s, by rw [asIs]; rfl, same.symm⟩
  match ps with
  | [] => exact others rfl rfl
  | ⟨.startTag p name as, meaning⟩ :: rest =>
    have unfolded : Piece.mergedWith k x (⟨.startTag p name as, meaning⟩ :: rest) s =
        (x.eval k s).bind fun q => (if q.1.isTrue then
          (do
            let as ← Eval.ofResult (Attributes.merge as q.1)
            return Piece.leaf k (.startTag p name as) :: rest : Eval (List Piece))
          else pure (⟨.startTag p name as, meaning⟩ :: rest)) q.2 := rfl
    rw [unfolded, value]
    by_cases truth : v.isTrue = true
    · simp only [truth, if_true] at merges
      refine ⟨Piece.leaf k (.startTag p name (merge as)) :: rest, t, ?_, by simp [Piece.leaf, firstMerged]⟩
      simp only [Except.bind, truth, if_true, merges as]
      rfl
    · simp only [truth] at merges
      subst merges
      refine ⟨⟨.startTag p name as, meaning⟩ :: rest, t, ?_, (firstMerged_id _).symm⟩
      simp only [Except.bind, truth]
      rfl
  | ⟨.blank, _⟩ :: _ | ⟨.endTag .., _⟩ :: _ | ⟨.text .., _⟩ :: _ | ⟨.startNamespace .., _⟩ :: _ | ⟨.endNamespace .., _⟩ :: _
  | ⟨.comment .., _⟩ :: _ | ⟨.instruction .., _⟩ :: _ | ⟨.doctype .., _⟩ :: _ | ⟨.expression .., _⟩ :: _ | ⟨.sub .., _⟩ :: _ =>
    exact others rfl rfl

/-- The directives as functions on lists give the result. -/
theorem events_rewriteAll (merges : c.Merges k s merge) (ps : List Piece) :
    ∃ qs t, Directive.rewriteAll k c.directives ps s = .ok (qs, t) ∧
      qs.map (·.event) = c.result merge (ps.map (·.event)) := by
  obtain ⟨content?, attributes?, strips⟩ := c
  -- from the inmost directive to the outermost one
  have tags : ∃ qs, Directive.rewriteAll k (if strips then [.strip none] else []) ps = pure qs ∧
      qs.map (·.event) = if strips then Directive.inside (ps.map (·.event)) else ps.map (·.event) := by
    cases strips with
    | false => exact ⟨ps, rfl, rfl⟩
    | true => exact ⟨Piece.stripped ps, rfl, by simp [Piece.stripped, Directive.inside, List.map_dropLast, List.map_tail]⟩
  obtain ⟨inner, tags, innerEvents⟩ := tags
  have merged : ∃ qs t, Directive.rewriteAll k ((attributes?.map Directive.attributes).toList ++
      if strips then [.strip none] else []) ps s = .ok (qs, t) ∧
      qs.map (·.event) = firstMerged merge (inner.map (·.event)) := by
    cases attributes? with
    | none =>
      obtain rfl := merges.absent rfl
      exact ⟨inner, s, congrFun tags s, (firstMerged_id _).symm⟩
    | some x =>
      obtain ⟨v, t, value, merges⟩ := merges.present x rfl
      obtain ⟨qs, r, ok, events⟩ := events_mergedWith value merges inner
      refine ⟨qs, r, ?_, events⟩
      rw [← ok]
      change (Directive.attributes x).rewrite k
        (Directive.rewriteAll k (if strips then [Directive.strip none] else []) ps) s = _
      rw [tags]
      rfl
  obtain ⟨qs, t, merged, events⟩ := merged
  rw [innerEvents] at events
  cases content? with
  | none => exact ⟨qs, t, merged, events⟩
  | some x =>
    refine ⟨Piece.filledWith k x qs, t, ?_, ?_⟩
    · change ((Directive.rewriteAll k ((attributes?.map Directive.attributes).toList ++
        if strips then [Directive.strip none] else []) ps s).bind fun p => .ok (Piece.filledWith k x p.1, p.2)) = _
      rw [merged]
      rfl
    · cases qs with
      | nil => simp [result, ← events, Directive.filled, Piece.filledWith]
      | cons q qs => simp [result, ← events, Directive.filled, Stream.event_filledWith]

/-- The stream of an element with directives ends, and has delivered what they make of it. -/
theorem completes_applied (merges : c.Merges k s merge) (es : List Event) :
    ∃ w t, Stream.Completes k (c.applied es) s (c.result merge es) none w t := by
  have rewriting : ∀ d ∈ c.directives, d.isRewriting = true := by
    obtain ⟨content?, attributes?, strips⟩ := c
    cases content? <;> cases attributes? <;> cases strips <;> simp [directives, Directive.isRewriting]
  obtain ⟨qs, t, ok, events⟩ := events_rewriteAll merges (Event.pieces k es)
  have delivers := Stream.delivers_rewritten (k := k) rewriting (Event.pieces k es) s
  rw [ok, Event.map_event_pieces] at delivers
  obtain ⟨w, completes⟩ := Stream.completes_of_delivers delivers
  rw [events, Event.map_event_pieces] at completes
  have applies := Stream.run_rewriting (k := k) rewriting [] (.ofEvents es) s
  rw [List.append_nil] at applies
  exact ⟨w, t, completes.after (applies.trans (.silent rfl))⟩

/-! ## What they are for -/

/-- The element's own tags with the merged attributes, unless they are stripped, around the expression at a
position or, if there is none, the children. -/
def intended (c : Composition) (merge : Attributes → Attributes) (p : Position) (name : QName) (as : Attributes)
    (children : List Event) (q : Position) (endName : QName) (place : Position) : List Event :=
  (if c.strips then [] else [.startTag p name (merge as)]) ++
    (match c.content? with
      | some x => [.expression place x]
      | none => children) ++
    if c.strips then [] else [.endTag q endName]

/-- Without its tags, an element is for `content` one event, and has no tag that `attrs` changes. -/
def Harmless (c : Composition) (merge : Attributes → Attributes) (children : List Event) : Prop :=
  c.strips = true → (c.content?.isSome → children.length = 1) ∧ (c.content? = none → firstMerged merge children = children)

theorem length_of_filled {x : Expression} {es : List Event} {place : Position} (h : Directive.filled x es = [.expression place x]) :
    es.length = 1 := by
  cases es with
  | nil => simp [Directive.filled] at h
  | cons e es =>
    by_cases start : e.isStart = true
    · simp [Directive.filled, start] at h
    · have noLast : es.getLast? = none := by
        simp only [Directive.filled, start, Bool.false_eq_true, if_false, List.nil_append, List.cons.injEq] at h
        simpa using h.2
      simp [List.getLast?_eq_none_iff.1 noLast]

theorem length_firstMerged (es : List Event) : (firstMerged merge es).length = es.length := by
  cases es with
  | nil => rfl
  | cons e es => cases e <;> rfl

/-- An event that is nested on its own is no tag, so it takes no attributes and gives way to an expression. -/
theorem filled_single {x : Expression} {e : Event} (nested : Event.Nested [e]) :
    Directive.filled x (firstMerged merge [e]) = [.expression e.position x] := by
  cases e with
  | startTag | endTag => simp [Event.Nested, Event.nest] at nested
  | _ => rfl

theorem result_eq_intended_iff {p : Position} {name : QName} {as : Attributes} {children : List Event} {q : Position}
    {endName : QName} (nested : Event.Nested children) :
    (∃ place, c.result merge (.startTag p name as :: (children ++ [.endTag q endName])) =
      c.intended merge p name as children q endName place) ↔ c.Harmless merge children := by
  obtain ⟨content?, attributes?, strips⟩ := c
  cases strips with
  | false =>
    have fits : ∃ place, (⟨content?, attributes?, false⟩ : Composition).result merge
        (.startTag p name as :: (children ++ [.endTag q endName])) =
        (⟨content?, attributes?, false⟩ : Composition).intended merge p name as children q endName place := by
      refine ⟨p, ?_⟩
      cases content? <;> simp [result, intended, firstMerged, Directive.filled, Event.isStart, Event.position]
    simp [fits, Harmless]
  | true =>
    cases content? with
    | none =>
      simp only [result, intended, Harmless, Directive.inside, if_true, List.tail_cons, List.dropLast_concat, List.nil_append, List.append_nil]
      constructor
      · rintro ⟨_, same⟩ -
        exact ⟨by simp, fun _ => same⟩
      · exact fun same => ⟨p, (same trivial).2 trivial⟩
    | some x =>
      simp only [result, intended, Harmless, Directive.inside, if_true, List.tail_cons, List.dropLast_concat, List.nil_append, List.append_nil]
      constructor
      · rintro ⟨place, same⟩ -
        exact ⟨fun _ => (length_firstMerged children).symm.trans (length_of_filled same), by simp⟩
      · intro single
        obtain ⟨e, rfl⟩ := List.length_eq_one_iff.1 ((single trivial).1 rfl)
        exact ⟨e.position, filled_single nested⟩

/-- **Directives on one element compose as intended, if `strip` is not among them**; if it is, exactly where
the children are a single event for `content`, and have no first tag that `attrs` would change. -/
theorem applied_as_specified {p : Position} {name : QName} {as : Attributes} {children : List Event} {q : Position}
    {endName : QName} (merges : c.Merges k s merge) (nested : Event.Nested children) :
    ∃ enough, ∀ more, enough ≤ more →
      let result := (c.applied (.startTag p name as :: (children ++ [.endTag q endName]))).collect more none s
      result.stop? = none ∧
        ((∃ place, result.events = c.intended merge p name as children q endName place) ↔ c.Harmless merge children) := by
  obtain ⟨w, t, completes⟩ := completes_applied merges (.startTag p name as :: (children ++ [.endTag q endName]))
  obtain ⟨enough, collects⟩ := Stream.collect_of_completes (by simp) completes
  refine ⟨enough, fun more large => ?_⟩
  rw [collects more large]
  exact ⟨rfl, result_eq_intended_iff nested⟩

/-- A text in an element gives way to the expression, and the tags of the element go. -/
theorem applied_as_specified_text :
    let c : Composition := ⟨some ⟨"1"⟩, none, true⟩
    let element : List Event := [.startTag ⟨1, 0⟩ (.plain "e") [], .text ⟨1, 3⟩ "T", .endTag ⟨1, 4⟩ (.plain "e")]
    let s := Store.ofContext (.ofBase []) (.empty [])
    ∃ enough, ∀ more, enough ≤ more → ∃ place,
      ((c.applied element).collect more none s).events = [.expression place ⟨"1"⟩] := by
  intro c element s
  have merges : c.Merges 0 s id := ⟨fun _ => rfl, fun x absent => by cases absent⟩
  have nested : Event.Nested [.text ⟨1, 3⟩ "T"] := by decide
  obtain ⟨enough, collects⟩ :=
    @applied_as_specified c 0 s id ⟨1, 0⟩ (.plain "e") [] [.text ⟨1, 3⟩ "T"] ⟨1, 4⟩ (.plain "e") merges nested
  exact ⟨enough, fun more large => (collects more large).2.2 fun _ => ⟨fun _ => rfl, fun absent => by cases absent⟩⟩

/-- The tags of an element in the element stay where the element is to give way to an expression. -/
theorem applied_keeps_inner_tags :
    let c : Composition := ⟨some ⟨"1"⟩, none, true⟩
    let children : List Event := [.startTag ⟨1, 3⟩ (.plain "c") [], .endTag ⟨1, 6⟩ (.plain "c")]
    let element : List Event := .startTag ⟨1, 0⟩ (.plain "e") [] :: (children ++ [.endTag ⟨1, 10⟩ (.plain "e")])
    let events := ((c.applied element).collect 30 none (.ofContext (.ofBase []) (.empty []))).events
    Event.Nested children ∧ events.map Event.kind = ["START", "EXPR", "END"] ∧
      ∀ place, events ≠ c.intended id ⟨1, 0⟩ (.plain "e") [] children ⟨1, 10⟩ (.plain "e") place := by
  intro c children element events
  have kinds : events.map Event.kind = ["START", "EXPR", "END"] := by decide +kernel
  refine ⟨by decide, kinds, fun place same => ?_⟩
  rw [same] at kinds
  have single : 1 = 3 := congrArg List.length kinds
  cases single

end Composition
end Stencil
