import Stencil.Proofs.Path.Printed

/-!
# What is read from a path

Whatever text is read as a path, reading it ends with a path or with an error that the notation knows: the bound
on the number of steps is never reached (`Path.cause_of_parse`). What is read can be written again, and it is how
it was written, up to the choice of quotes and the white space around routes. So paths are read back from their
print (`Path.parse_printed`).
-/

namespace Stencil

namespace Path

variable {source rest after : Text} {test : NodeTest} {predicate? : Option Predicate} {axis : Axis} {steps : List Step}
  {e : PathError} {n : Nat}

/-! ## Names -/

theorem isName_takeWhile (some : (rest.takeWhile isNamePart).isEmpty = false) : IsName (rest.takeWhile isNamePart) := by
  constructor
  · simpa using some
  · intro c hc
    exact List.all_eq_true.1 List.all_takeWhile c hc

/-- A name is a single dot only where that stands for the element itself. -/
theorem ne_dot {c : Byte} {r : Text} (goesOn : c = '.' → ∃ d ∈ r.head?, isNamePart d = true) :
    (c :: r).takeWhile isNamePart ≠ "." := by
  intro single
  have first : isNamePart c = true := by
    cases part : isNamePart c with
    | true => rfl
    | false =>
      rw [List.takeWhile_cons_of_neg (by simp [part])] at single
      cases single
  rw [List.takeWhile_cons_of_pos first, show (("." : String) : Text) = [('.' : Byte)] from rfl] at single
  obtain ⟨dot, none⟩ := List.cons.inj single
  obtain ⟨d, next, part⟩ := goesOn dot
  cases r with
  | nil => cases next
  | cons b r =>
    cases next
    rw [List.takeWhile_cons_of_pos part] at none
    cases none

/-! ## Tests and predicates -/

/-- What is read as a test can be written, and is written so. -/
theorem of_readTest (h : readTest source rest = .ok (test, after)) : test.Writable ∧ rest = test.print ++ after := by
  cases rest with
  | nil => cases h
  | cons c r =>
    have parts := List.takeWhile_append_dropWhile (p := isNamePart) (l := r)
    have whole := List.takeWhile_append_dropWhile (p := isNamePart) (l := c :: r)
    unfold readTest at h
    dsimp only at h
    split_ifs at h with asks every missing star dot unexpected text
    · cases h
      cases r with
      | nil => cases every
      | cons d r =>
        have first : c = '@' := by simpa using asks
        have second : d = '*' := by simpa using every
        refine ⟨.anyAttribute, ?_⟩
        rw [first, second]
        rfl
    · cases h
    · cases h
      have first : c = '@' := by simpa using asks
      refine ⟨.attributeNamed (isName_takeWhile (by simpa using missing)), ?_⟩
      rw [first]
      exact congrArg _ parts.symm
    · cases h
      have first : c = '*' := by simpa using star
      refine ⟨.anyElement, ?_⟩
      rw [first]
      rfl
    · cases h
      have first : c = '.' := by simpa using (Bool.and_eq_true_iff.1 dot).1
      refine ⟨.self, ?_⟩
      rw [first]
      rfl
    · cases h
    · cases h
      obtain ⟨name, call⟩ := Bool.and_eq_true_iff.1 text
      obtain ⟨left, call⟩ := List.isPrefixOf_iff_prefix.1 call
      rw [beq_iff_eq.1 name, ← call] at whole
      refine ⟨.text, ?_⟩
      rw [← call, ← whole]
      rfl
    · cases h
      exact ⟨.element (isName_takeWhile (by simpa using unexpected)) (ne_dot (by simpa [Option.any_eq_true] using dot)),
        whole.symm⟩

theorem cause_of_readTest (h : readTest source rest = .error e) : e.cause ≠ .outOfSteps := by
  cases rest with
  | nil =>
    cases h
    exact nofun
  | cons c r =>
    unfold readTest at h
    dsimp only at h
    split_ifs at h <;> cases h <;> exact nofun

/-- A value stands in quotes that it does not contain. -/
theorem of_readValue {v : Text} (h : readValue source rest = .ok (v, after)) :
    ∃ quote, isQuote quote = true ∧ quote ∉ v ∧ rest = quote :: (v ++ quote :: after) := by
  cases rest with
  | nil => cases h
  | cons quote r =>
    unfold readValue at h
    dsimp only at h
    split_ifs at h with opens closes
    · cases h
    · cases h
    · have quotes : isQuote quote = true := by simpa using opens
      obtain ⟨before, last, rfl, free⟩ := List.eq_append_cons_of_mem (show quote ∈ r by simpa using closes)
      have read : readValue source (quote :: (before ++ quote :: last)) = .ok (before, last) := readValue_quoted quotes free
      unfold readValue at read
      dsimp only at read
      rw [if_neg opens, if_neg closes, h] at read
      cases read
      exact ⟨quote, quotes, free, rfl⟩

theorem cause_of_readValue (h : readValue source rest = .error e) : e.cause ≠ .outOfSteps := by
  cases rest with
  | nil =>
    cases h
    exact nofun
  | cons quote r =>
    unfold readValue at h
    dsimp only at h
    split_ifs at h <;> cases h <;> exact nofun

theorem of_readClose {q : Predicate} (h : readClose source q rest = .ok (predicate?, after)) :
    predicate? = some q ∧ rest = (']' : Byte) :: after := by
  cases rest with
  | nil => cases h
  | cons c r =>
    unfold readClose at h
    split_ifs at h with closes
    · cases h
      have first : c = ']' := by simpa using closes
      exact ⟨rfl, by rw [first]; rfl⟩
    · cases h

theorem cause_of_readClose {q : Predicate} (h : readClose source q rest = .error e) : e.cause ≠ .outOfSteps := by
  unfold readClose at h
  split_ifs at h
  cases h
  exact nofun

/-- What a predicate is read from: a bracket, the name of an attribute, and a value if it asks for one. -/
theorem readPredicate_cases (h : readPredicate source test rest = .ok (predicate?, after)) :
    (predicate? = none ∧ after = rest) ∨
      (test.isAttribute = false ∧ test ≠ .text) ∧ ∃ key left, IsName key ∧
        rest = ('[' : Byte) :: ('@' : Byte) :: (key ++ left) ∧
        (readClose source ⟨key, none⟩ left = .ok (predicate?, after) ∨
          ∃ assigned v last, left = ('=' : Byte) :: assigned ∧ readValue source assigned = .ok (v, last) ∧
            readClose source ⟨key, some v⟩ last = .ok (predicate?, after)) := by
  have starts : ∀ {s : Text} {c : Byte}, s.head? = some c → s = c :: s.drop 1 := by
    intro s c first
    rw [List.drop_one]
    exact (List.cons_head?_tail first).symm
  unfold readPredicate at h
  dsimp only at h
  split_ifs at h with none misplaced bare missing equals
  · cases h
    exact .inl ⟨rfl, rfl⟩
  · cases h
  · cases h
  · cases h
  all_goals
    have placed : test.isAttribute = false ∧ test ≠ .text := by simpa using misplaced
    have opened := starts (show rest.head? = some ('[' : Byte) by simpa using none)
    have asks := starts (show (rest.drop 1).head? = some ('@' : Byte) by simpa using bare)
    have parts := List.takeWhile_append_dropWhile (p := isNamePart) (l := (rest.drop 1).drop 1)
    have name := isName_takeWhile (Bool.eq_false_iff.2 missing)
    rw [asks, ← parts] at opened
    refine .inr ⟨placed, _, _, name, opened, ?_⟩
  · have assigned := starts (beq_iff_eq.1 equals)
    cases value : readValue source ((((rest.drop 1).drop 1).dropWhile isNamePart).drop 1) with
    | error e =>
      rw [value] at h
      cases h
    | ok read =>
      rw [value] at h
      exact .inr ⟨_, read.1, read.2, assigned, value, h⟩
  · exact .inl h

/-- What is read as a predicate can be written, and is written so, at a step to elements. -/
theorem of_readPredicate (h : readPredicate source test rest = .ok (predicate?, after)) :
    ∃ quote : Byte, (∀ q ∈ predicate?, q.Writable ∧ ∀ v ∈ q.value?, isQuote quote = true ∧ quote ∉ v) ∧
      (predicate?.isSome = true → test.isAttribute = false ∧ test ≠ .text) ∧
      rest = Step.printPredicate (fun _ => quote) predicate? ++ after := by
  rcases readPredicate_cases h with ⟨rfl, rfl⟩ | ⟨placed, key, left, name, rfl, bare | ⟨assigned, v, last, rfl, value, closed⟩⟩
  · refine ⟨'\'', ?_, ?_, rfl⟩
    · rintro q ⟨⟩
    · rintro ⟨⟩
  · obtain ⟨rfl, rfl⟩ := of_readClose bare
    refine ⟨'\'', ?_, fun _ => placed, ?_⟩
    · rintro q ⟨⟩
      refine ⟨⟨name, ?_⟩, ?_⟩
      · rintro v ⟨⟩
      · rintro v ⟨⟩
    · simp [Step.printPredicate, Predicate.print, Predicate.printValue]
  · obtain ⟨rfl, rfl⟩ := of_readClose closed
    obtain ⟨quote, quotes, free, rfl⟩ := of_readValue value
    refine ⟨quote, ?_, fun _ => placed, ?_⟩
    · rintro q ⟨⟩
      constructor
      · exact ⟨name, by rintro v ⟨⟩; exact ⟨quote, quotes, free⟩⟩
      · rintro v ⟨⟩
        exact ⟨quotes, free⟩
    · simp [Step.printPredicate, Predicate.print, Predicate.printValue]

theorem cause_of_readPredicate (h : readPredicate source test rest = .error e) : e.cause ≠ .outOfSteps := by
  unfold readPredicate at h
  dsimp only at h
  split_ifs at h
  · cases h
    exact nofun
  · cases h
    exact nofun
  · cases h
    exact nofun
  · cases value : readValue source ((((rest.drop 1).drop 1).dropWhile isNamePart).drop 1) with
    | error e' =>
      rw [value] at h
      cases h
      exact cause_of_readValue value
    | ok read =>
      rw [value] at h
      exact cause_of_readClose h
  · exact cause_of_readClose h

/-! ## Steps -/

/-- A step is written as it is printed, with one kind of quote or the other. -/
theorem StepAt.printed {s : Step} (h : StepAt rest s.test s.predicate? after) :
    s.Writable ∧ ∃ quote : Byte, s.Suits (fun _ => quote) ∧ rest = s.print (fun _ => quote) ++ after := by
  obtain ⟨afterTest, first, second⟩ := h
  obtain ⟨test, written⟩ := of_readTest (first [])
  obtain ⟨quote, predicate, placed, left⟩ := of_readPredicate (second [])
  refine ⟨⟨test, fun q hq => (predicate q hq).1, placed⟩, quote, fun q hq => (predicate q hq).2, ?_⟩
  rw [written, left, Step.print, List.append_assoc]

theorem StepsAt.writable (h : StepsAt axis rest steps) : ∀ s ∈ steps, s.Writable := by
  induction h with
  | @last axis _ test predicate? step =>
    have here : Step.Writable ⟨axis, test, predicate?⟩ := step.printed.1
    exact List.forall_mem_singleton.2 here
  | @more axis _ _ _ _ test predicate? _ step _ _ _ _ ih =>
    have here : Step.Writable ⟨axis, test, predicate?⟩ := step.printed.1
    exact List.forall_mem_cons.2 ⟨here, ih⟩

theorem StepsAt.axis_head (h : StepsAt axis rest steps) : ∀ s ∈ steps.head?, s.axis = axis := by
  cases h with
  | last | more =>
    rintro s ⟨⟩
    rfl

/-- A step takes at least a byte. -/
theorem length_lt_of_read {afterTest : Text} (first : readTest source rest = .ok (test, afterTest))
    (second : readPredicate source test afterTest = .ok (predicate?, after)) : after.length < rest.length := by
  obtain ⟨writable, written⟩ := of_readTest first
  obtain ⟨quote, -, -, left⟩ := of_readPredicate second
  have used := List.length_pos_iff.2 (print_ne_nil writable)
  rw [written, left, List.length_append, List.length_append]
  omega

theorem exists_of_map_eq_error {ε α β : Type} {f : α → β} {r : Except ε α} {e : ε} (h : r.map f = .error e) : r = .error e := by
  cases r with
  | error e' =>
    cases h
    rfl
  | ok a => cases h

/-- So as many steps as there are bytes, and one for the end, are enough. -/
theorem cause_of_readSteps (enough : rest.length < n) (h : readSteps source n axis rest = .error e) :
    e.cause ≠ .outOfSteps := by
  induction n generalizing rest axis e with
  | zero => omega
  | succ n ih =>
    rw [readSteps] at h
    cases first : readTest source rest with
    | error e' =>
      rw [first] at h
      cases h
      exact cause_of_readTest first
    | ok read =>
      obtain ⟨test, afterTest⟩ := read
      simp only [first] at h
      cases second : readPredicate source test afterTest with
      | error e' =>
        rw [second] at h
        cases h
        exact cause_of_readPredicate second
      | ok read =>
        obtain ⟨predicate?, after⟩ := read
        have shorter := length_lt_of_read first second
        simp only [second] at h
        have goesOn : ∀ next k, (readSteps source n next (after.drop k)).map (⟨axis, test, predicate?⟩ :: ·) = .error e →
            e.cause ≠ .outOfSteps := by
          intro next k failed
          have less : (after.drop k).length < n := by
            rw [List.length_drop]
            omega
          exact ih less (exists_of_map_eq_error failed)
        split_ifs at h
        · cases h
          rintro ⟨⟩
        · exact goesOn _ _ h
        · exact goesOn _ _ h
        · cases h
          rintro ⟨⟩

/-! ## Routes -/

/-- The text of a route is what stands before its steps, and the steps. -/
theorem readRoute_cases (t : Text) : ∃ absolute axis rest, t = Route.lead absolute axis ++ rest ∧
    (absolute = true → axis = .child) ∧
    readRoute t = (readSteps t (t.length + 1) axis rest).map (⟨absolute, ·⟩) := by
  unfold readRoute
  dsimp only
  split_ifs with deep anchored
  · obtain ⟨rest, rfl⟩ := List.isPrefixOf_iff_prefix.1 deep
    exact ⟨false, .descendant, rest, rfl, nofun, rfl⟩
  · cases t with
    | nil => cases anchored
    | cons c rest =>
      have first : c = '/' := by simpa using anchored
      refine ⟨true, .child, rest, ?_, fun _ => rfl, rfl⟩
      rw [first]
      rfl
  · exact ⟨false, .child, t, rfl, nofun, rfl⟩

theorem stepsAt_of_readRoute {t : Text} {r : Route} (h : readRoute t = .ok r) :
    ∃ axis rest, t = Route.lead r.absolute axis ++ rest ∧ (r.absolute = true → axis = .child) ∧ StepsAt axis rest r.steps := by
  obtain ⟨absolute, axis, rest, written, anchored, route⟩ := readRoute_cases t
  rw [route] at h
  obtain ⟨steps, read, rfl⟩ := exists_of_map_eq_ok h
  exact ⟨axis, rest, written, anchored, (stepsAt_of_readSteps read).1⟩

theorem writable_of_readRoute {t : Text} {r : Route} (h : readRoute t = .ok r) : r.Writable := by
  obtain ⟨axis, rest, -, anchored, written⟩ := stepsAt_of_readRoute h
  constructor
  · exact written.ne_nil
  · exact written.attributesLast
  · exact written.writable
  · intro absolute s first
    rw [written.axis_head s first]
    exact anchored absolute

theorem cause_of_readRoute {t : Text} (h : readRoute t = .error e) : e.cause ≠ .outOfSteps := by
  obtain ⟨absolute, axis, rest, written, -, route⟩ := readRoute_cases t
  have parts := congrArg List.length written
  rw [List.length_append] at parts
  rw [route] at h
  exact cause_of_readSteps (by omega) (exists_of_map_eq_error h)

/-! ## Paths -/

variable {ts : List Text} {rs : List Route}

theorem writable_of_readRoutes (h : readRoutes source ts = .ok rs) : rs.length = ts.length ∧ ∀ r ∈ rs, r.Writable := by
  induction ts generalizing rs with
  | nil =>
    cases h
    exact ⟨rfl, nofun⟩
  | cons t ts ih =>
    obtain ⟨r, rs', first, others, rfl⟩ := readRoutes_cons h
    obtain ⟨many, written⟩ := ih others
    exact ⟨congrArg Nat.succ many, List.forall_mem_cons.2 ⟨writable_of_readRoute first, written⟩⟩

theorem cause_of_readRoutes (h : readRoutes source ts = .error e) : e.cause ≠ .outOfSteps := by
  induction ts generalizing e with
  | nil => cases h
  | cons t ts ih =>
    unfold readRoutes at h
    dsimp only at h
    split_ifs at h
    · cases h
      rintro ⟨⟩
    · cases first : readRoute (Text.trimWhite t) with
      | error e' =>
        rw [first] at h
        cases h
        exact cause_of_readRoute first
      | ok r =>
        rw [first] at h
        exact ih (exists_of_map_eq_error h)

/-- What is read as a path is at least one route, and each of them can be written. -/
theorem writable_of_parse {p : Path} (h : parse source = .ok p) : p.routes ≠ [] ∧ ∀ r ∈ p.routes, r.Writable := by
  obtain ⟨rs, routes, rfl⟩ := exists_of_map_eq_ok h
  obtain ⟨many, written⟩ := writable_of_readRoutes routes
  refine ⟨?_, written⟩
  intro none
  apply splitRoutes_ne_nil Option.none 0 source
  rw [show rs = [] from none] at many
  exact List.length_eq_zero_iff.1 many.symm

/-- A path is refused for an error of its notation. -/
theorem cause_of_parse (h : parse source = .error e) : e.cause ≠ .outOfSteps :=
  cause_of_readRoutes (exists_of_map_eq_error h)

/-- The kind of quote that a value does not contain, an apostrophe if there is a choice. -/
def plainMark (v : Text) : Byte := if v.contains ('\'' : Byte) then '\"' else '\''

/-- Each value that was read can be put in quotes. -/
theorem suits_plainMark {rs : List Route} (writable : ∀ r ∈ rs, r.Writable) : Suits plainMark rs := by
  intro r hr s hs q hq v hv
  obtain ⟨quote, quotes, free⟩ := (((writable r hr).steps s hs).predicate q hq).quotable v hv
  unfold plainMark
  split
  · rename_i apostrophe
    refine ⟨rfl, ?_⟩
    -- the kind of quote that is not in the value is no apostrophe
    have double : quote = '\"' := by
      have either : quote = '\'' ∨ quote = '\"' := by simpa [isQuote] using quotes
      rcases either with rfl | double
      · exact absurd (List.contains_iff_mem.1 apostrophe) free
      · exact double
    exact double ▸ free
  · rename_i none
    exact ⟨rfl, fun there => none (List.contains_iff_mem.2 there)⟩

/-- **Paths are read back from their print.** A text is refused, or read as routes, at least one, each of at least one
step and with steps to attributes in the last place only. There are quotes for all values in what was read, and with
any such choice the print of the routes is read as the same routes. -/
theorem parse_printed (source : Text) :
    (∃ e, parse source = .error e ∧ e.cause ≠ .outOfSteps) ∨
      ∃ p, parse source = .ok p ∧ p.routes ≠ [] ∧ (∀ r ∈ p.routes, r.steps ≠ [] ∧ AttributesLast r.steps) ∧
        Suits plainMark p.routes ∧
        ∀ mark, Suits mark p.routes → parse (print mark p.routes) = .ok ⟨print mark p.routes, p.routes⟩ := by
  cases read : parse source with
  | error e => exact .inl ⟨e, rfl, cause_of_parse read⟩
  | ok p =>
    obtain ⟨some, writable⟩ := writable_of_parse read
    refine .inr ⟨p, rfl, some, fun r hr => ⟨(writable r hr).some, (writable r hr).attributesLast⟩,
      suits_plainMark writable, fun mark suits => ?_⟩
    exact parse_of_print some writable suits

/-- An element called `text`, bars and brackets in quotes, and the other kind of quote. -/
example :
    let source : Text := "/text[@a=\"'|]\"]/.//text() | ..[@x:y='\"']/@*"
    (parse source).map (fun p => print plainMark p.routes) =
      .ok "/text[@a=\"'|]\"]/.//text()|..[@x:y='\"']/@*" := by decide

end Path

end Stencil
