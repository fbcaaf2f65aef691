import Mathlib.Data.List.Basic
import Stencil.Path.Parser
import Stencil.Proofs.Text.Trimmed

/-!
# How paths are written

What a path in writing is read to does not depend on where it stands: the steps of a route are read to the same
steps after `/`, and to the same but for the axis of the first one after `//` (`Path.parse_route`). In what is
read, a step to attributes is the last one of its route (`Path.attributesLast_of_parse`).
-/

namespace Stencil

namespace Path

/-- A step to attributes is the last one of its route. -/
def AttributesLast (steps : List Step) : Prop := ∀ s ∈ steps.dropLast, s.test.isAttribute = false

/-- The steps with another axis for the first one. -/
def along (axis : Axis) : List Step → List Step
  | [] => []
  | s :: steps => { s with axis := axis } :: steps

theorem length_along (axis : Axis) (steps : List Step) : (along axis steps).length = steps.length := by
  cases steps <;> rfl

theorem along_ne_nil {axis : Axis} {steps : List Step} (some : steps ≠ []) : along axis steps ≠ [] := by
  cases steps with
  | nil => exact absurd rfl some
  | cons s steps => simp [along]

theorem along_append {axis : Axis} {steps : List Step} (some : steps ≠ []) (more : List Step) :
    along axis (steps ++ more) = along axis steps ++ more := by
  cases steps with
  | nil => exact absurd rfl some
  | cons s steps => rfl

/-- The tests stay the same. -/
theorem forall_test_along (axis : Axis) {steps : List Step} {p : NodeTest → Prop} (h : ∀ s ∈ steps, p s.test) :
    ∀ s ∈ along axis steps, p s.test := by
  cases steps with
  | nil => simp [along]
  | cons s steps => simpa [along] using h

/-- What separates a step from the next one, and the text of that. -/
def separator? (after : Text) : Option (Axis × Text) :=
  if ("//" : Text).isPrefixOf after then some (.descendant, after.drop 2)
  else if after.head? == some ('/' : Byte) then some (.child, after.drop 1)
  else none

/-! ## Steps -/

variable {source source' rest : Text} {axis : Axis} {n : Nat} {steps : List Step} {test : NodeTest}

/-- Only errors tell where a step stands. -/
theorem readTest_toOption : (readTest source rest).toOption = (readTest source' rest).toOption := by
  cases rest with
  | nil => rfl
  | cons c r =>
    unfold readTest
    dsimp only
    split_ifs <;> rfl

theorem readValue_toOption : (readValue source rest).toOption = (readValue source' rest).toOption := by
  cases rest with
  | nil => rfl
  | cons q r =>
    unfold readValue
    dsimp only
    split_ifs <;> rfl

theorem readClose_toOption {p : Predicate} : (readClose source p rest).toOption = (readClose source' p rest).toOption := by
  unfold readClose
  split_ifs <;> rfl

theorem readPredicate_toOption : (readPredicate source test rest).toOption = (readPredicate source' test rest).toOption := by
  unfold readPredicate
  dsimp only
  split_ifs
  · rfl
  · rfl
  · rfl
  · rfl
  · have value : (readValue source ((((rest.drop 1).drop 1).dropWhile isNamePart).drop 1)).toOption =
        (readValue source' ((((rest.drop 1).drop 1).dropWhile isNamePart).drop 1)).toOption := readValue_toOption
    generalize readValue source _ = r at value ⊢
    generalize readValue source' _ = r' at value ⊢
    cases r with
    | error => cases r' with
      | error => rfl
      | ok => cases value
    | ok => cases r' with
      | error => cases value
      | ok =>
        cases value
        exact readClose_toOption
  · exact readClose_toOption

theorem toOption_eq_some_iff {ε α : Type} {r : Except ε α} {a : α} : r.toOption = some a ↔ r = .ok a := by
  cases r <;> simp [Except.toOption]

theorem readTest_ok {x : NodeTest × Text} (h : readTest source rest = .ok x) : readTest source' rest = .ok x :=
  toOption_eq_some_iff.1 (readTest_toOption.trans (toOption_eq_some_iff.2 h))

theorem readPredicate_ok {x : Option Predicate × Text} (h : readPredicate source test rest = .ok x) :
    readPredicate source' test rest = .ok x :=
  toOption_eq_some_iff.1 (readPredicate_toOption.trans (toOption_eq_some_iff.2 h))

theorem exists_of_map_eq_ok {ε α β : Type} {f : α → β} {r : Except ε α} {b : β} (h : r.map f = .ok b) :
    ∃ a, r = .ok a ∧ f a = b := by
  cases r with
  | error e => cases h
  | ok a =>
    cases h
    exact ⟨a, rfl, rfl⟩

/-- A text starts with a test, and a predicate if there is one, whatever it is part of. -/
def StepAt (rest : Text) (test : NodeTest) (predicate? : Option Predicate) (after : Text) : Prop :=
  ∃ afterTest, (∀ source, readTest source rest = .ok (test, afterTest)) ∧
    ∀ source, readPredicate source test afterTest = .ok (predicate?, after)

/-- A text is made of steps: after each one there is nothing, or a separator and the next one. -/
inductive StepsAt : Axis → Text → List Step → Prop
  | last {axis : Axis} {rest : Text} {test : NodeTest} {predicate? : Option Predicate}
    (step : StepAt rest test predicate? []) : StepsAt axis rest [⟨axis, test, predicate?⟩]
  | more {axis next : Axis} {rest after tail : Text} {test : NodeTest} {predicate? : Option Predicate} {steps : List Step}
    (step : StepAt rest test predicate? after) (some : after ≠ []) (asksNone : test.isAttribute = false)
    (separator : separator? after = .some (next, tail)) (others : StepsAt next tail steps) :
    StepsAt axis rest (⟨axis, test, predicate?⟩ :: steps)

/-- What is read is made of steps, no more of them than were allowed. -/
theorem stepsAt_of_readSteps (h : readSteps source n axis rest = .ok steps) : StepsAt axis rest steps ∧ steps.length ≤ n := by
  induction n generalizing axis rest steps with
  | zero => cases h
  | succ n ih =>
    rw [readSteps] at h
    cases first : readTest source rest with
    | error e => simp [first] at h
    | ok read =>
      obtain ⟨test, afterTest⟩ := read
      simp only [first] at h
      cases second : readPredicate source test afterTest with
      | error e => simp [second] at h
      | ok read =>
        obtain ⟨predicate?, after⟩ := read
        simp only [second] at h
        have step : StepAt rest test predicate? after := ⟨afterTest, fun _ => readTest_ok first, fun _ => readPredicate_ok second⟩
        have goesOn : ∀ next tail, (readSteps source n next tail).map (⟨axis, test, predicate?⟩ :: ·) = .ok steps →
            ∃ more, StepsAt next tail more ∧ more.length ≤ n ∧ steps = ⟨axis, test, predicate?⟩ :: more := by
          intro next tail h
          obtain ⟨more, read, rfl⟩ := exists_of_map_eq_ok h
          obtain ⟨others, few⟩ := ih read
          exact ⟨more, others, few, rfl⟩
        split_ifs at h with ends asks deep child
        · cases h
          rw [List.isEmpty_iff.1 ends] at step
          exact ⟨.last step, Nat.le_add_left _ _⟩
        · cases h
        · obtain ⟨more, others, few, rfl⟩ := goesOn _ _ h
          exact ⟨.more step (by simpa using ends) (by simpa using asks) (by rw [separator?, if_pos deep]) others,
            Nat.succ_le_succ few⟩
        · obtain ⟨more, others, few, rfl⟩ := goesOn _ _ h
          exact ⟨.more step (by simpa using ends) (by simpa using asks) (by rw [separator?, if_neg deep, if_pos child]) others,
            Nat.succ_le_succ few⟩
        · cases h

/-- What is made of steps is read to them, wherever it stands. -/
theorem readSteps_of_stepsAt (h : StepsAt axis rest steps) (source : Text) {n : Nat} (enough : steps.length ≤ n) :
    readSteps source n axis rest = .ok steps := by
  induction h generalizing n with
  | last step =>
    obtain ⟨n, rfl⟩ := Nat.exists_eq_add_of_lt enough
    obtain ⟨afterTest, first, second⟩ := step
    simp [readSteps, first, second]
  | @more axis next rest after tail test predicate? steps step some asksNone separator others ih =>
    obtain ⟨n, rfl⟩ := Nat.exists_eq_add_of_lt (Nat.lt_of_lt_of_le (Nat.succ_pos _) enough)
    obtain ⟨afterTest, first, second⟩ := step
    rw [Nat.zero_add] at enough ⊢
    have read := ih (Nat.le_of_succ_le_succ enough)
    rw [readSteps, first]
    dsimp only
    rw [second]
    dsimp only
    rw [if_neg (by simpa using some), if_neg (by simpa using asksNone)]
    unfold separator? at separator
    split_ifs at separator ⊢ with deep child <;> cases separator <;> rw [read] <;> rfl

theorem StepsAt.along (h : StepsAt axis rest steps) (axis' : Axis) : StepsAt axis' rest (along axis' steps) := by
  cases h with
  | last step => exact .last step
  | more step some asksNone separator others => exact .more step some asksNone separator others

theorem StepsAt.ne_nil (h : StepsAt axis rest steps) : steps ≠ [] := by
  cases h <;> simp

theorem StepsAt.along_self (h : StepsAt axis rest steps) : Path.along axis steps = steps := by
  cases h <;> rfl

theorem StepsAt.attributesLast (h : StepsAt axis rest steps) : AttributesLast steps := by
  induction h with
  | last => simp [AttributesLast]
  | more _ _ asksNone _ others ih =>
    intro s hs
    cases others with
    | last =>
      rw [List.mem_singleton.1 hs]
      exact asksNone
    | more =>
      rcases List.mem_cons.1 hs with rfl | later
      · exact asksNone
      · exact ih s later

/-! ## Routes -/

theorem splitRoutes_ne_nil (quote : Option Byte) (depth : Nat) (s : Text) : splitRoutes quote depth s ≠ [] := by
  have consFirst_ne_nil : ∀ (c : Byte) (ts : List Text), consFirst c ts ≠ [] := by
    intro c ts
    cases ts <;> simp [consFirst]
  cases s with
  | nil => simp [splitRoutes]
  | cons c s =>
    unfold splitRoutes
    split
    · exact consFirst_ne_nil c _
    · split_ifs
      · exact consFirst_ne_nil c _
      · exact consFirst_ne_nil c _
      · exact consFirst_ne_nil c _
      · simp
      · exact consFirst_ne_nil c _

theorem consFirst_eq_singleton {c : Byte} {ts : List Text} {t : Text} (some : ts ≠ []) (h : consFirst c ts = [t]) :
    ∃ t', ts = [t'] ∧ t = c :: t' := by
  cases ts with
  | nil => exact absurd rfl some
  | cons t' ts =>
    simp only [consFirst, List.cons.injEq] at h
    exact ⟨t', by rw [h.2], h.1.symm⟩

theorem splitRoutes_slash {s t : Text} (single : splitRoutes none 0 s = [t]) :
    splitRoutes none 0 (('/' : Byte) :: s) = [('/' : Byte) :: t] := by
  have first : splitRoutes none 0 (('/' : Byte) :: s) = consFirst '/' (splitRoutes none 0 s) := rfl
  rw [first, single]
  rfl

/-- A path of one route is the text of that route. -/
theorem eq_of_splitRoutes {quote : Option Byte} {depth : Nat} {s t : Text} (h : splitRoutes quote depth s = [t]) : t = s := by
  induction s generalizing quote depth t with
  | nil =>
    cases h
    rfl
  | cons c s ih =>
    have rest : ∀ quote depth, consFirst c (splitRoutes quote depth s) = [t] → t = c :: s := by
      intro quote depth h
      obtain ⟨t', single, rfl⟩ := consFirst_eq_singleton (splitRoutes_ne_nil quote depth s) h
      rw [ih single]
    unfold splitRoutes at h
    split at h
    · exact rest _ _ h
    · split_ifs at h
      · exact rest _ _ h
      · exact rest _ _ h
      · exact rest _ _ h
      · simp only [List.cons.injEq] at h
        exact absurd h.2 (splitRoutes_ne_nil _ _ _)
      · exact rest _ _ h

theorem trimRight_cons {c : Byte} (visible : c.isWhite = false) (s : Text) :
    Text.trimRight Byte.isWhite (c :: s) = c :: Text.trimRight Byte.isWhite s := by
  have last : ∀ d ∈ [c].getLast?, Byte.isWhite d = false := by
    rintro _ ⟨⟩
    exact visible
  exact Text.trimRight_append_of_last last s

/-- A text that starts with no white space loses only what is at its end. -/
theorem trimWhite_cons {c : Byte} (visible : c.isWhite = false) (s : Text) :
    Text.trimWhite (c :: s) = c :: Text.trimRight Byte.isWhite s := by
  rw [Text.trimWhite, Text.trim, trimRight_cons visible, Text.trimLeft, List.dropWhile_cons_of_neg (by simp [visible])]

theorem visible_slash : Byte.isWhite ('/' : Byte) = false := by decide

section

variable {c : Byte} (step : c ≠ '/') (s : Text)

include step

/-- A route that starts with its first step. -/
theorem readRoute_step :
    readRoute (c :: s) = (readSteps (c :: s) ((c :: s).length + 1) .child (c :: s)).map (⟨false, ·⟩) := by
  have deep : ("//" : Text).isPrefixOf (c :: s) = false := by
    change (('/' : Byte) == c && _) = false
    simp [step.symm]
  have child : ((c :: s).head? == some ('/' : Byte)) = false := by simpa using step
  rw [readRoute, deep, child]
  rfl

theorem readRoute_anchored : readRoute (('/' : Byte) :: c :: s) =
    (readSteps (('/' : Byte) :: c :: s) ((c :: s).length + 2) .child (c :: s)).map (⟨true, ·⟩) := by
  have deep : ("//" : Text).isPrefixOf (('/' : Byte) :: c :: s) = false := by
    change (true && (('/' : Byte) == c && _)) = false
    simp [step.symm]
  rw [readRoute, deep]
  rfl

end

theorem readRoute_anywhere (t : Text) : readRoute (('/' : Byte) :: ('/' : Byte) :: t) =
    (readSteps (('/' : Byte) :: ('/' : Byte) :: t) (t.length + 3) .descendant t).map (⟨false, ·⟩) := rfl

/-! ## Paths -/

theorem readRoutes_cons {source t : Text} {ts : List Text} {rs : List Route} (h : readRoutes source (t :: ts) = .ok rs) :
    ∃ r rs', readRoute (Text.trimWhite t) = .ok r ∧ readRoutes source ts = .ok rs' ∧ rs = r :: rs' := by
  simp only [readRoutes] at h
  split at h
  · cases h
  · cases first : readRoute (Text.trimWhite t) with
    | error e => simp [first] at h
    | ok r =>
      rw [first] at h
      obtain ⟨rs', others, rfl⟩ := exists_of_map_eq_ok h
      exact ⟨r, rs', rfl, others, rfl⟩

theorem readRoutes_singleton {source : Text} {ts : List Text} {r : Route} (h : readRoutes source ts = .ok [r]) :
    ∃ t, ts = [t] ∧ readRoute (Text.trimWhite t) = .ok r := by
  cases ts with
  | nil => cases h
  | cons t ts =>
    obtain ⟨r', rs, first, others, same⟩ := readRoutes_cons h
    obtain ⟨rfl, rfl⟩ := List.cons.inj same
    cases ts with
    | nil => exact ⟨t, rfl, first⟩
    | cons t' ts =>
      obtain ⟨_, _, -, -, same⟩ := readRoutes_cons others
      cases same

theorem parse_of_splitRoutes {source t : Text} {r : Route} (single : splitRoutes none 0 source = [t])
    (some : Text.trimWhite t ≠ []) (read : readRoute (Text.trimWhite t) = .ok r) : parse source = .ok ⟨source, [r]⟩ := by
  simp [parse, single, readRoutes, some, read, Except.map]

/-- **What a route is read to, by itself, at any depth and anchored.** -/
theorem parse_route {P : Text} {p : Path} {r : Route} (parsed : parse P = .ok p) (single : p.routes = [r])
    (starts : ∀ c ∈ P.head?, c ≠ '/' ∧ c.isWhite = false) :
    r.absolute = false ∧ r.steps ≠ [] ∧ along .child r.steps = r.steps ∧
      parse ("//" ++ P) = .ok ⟨"//" ++ P, [⟨false, along .descendant r.steps⟩]⟩ ∧
      parse ("/" ++ P) = .ok ⟨"/" ++ P, [⟨true, r.steps⟩]⟩ := by
  obtain ⟨rs, routes, rfl⟩ := exists_of_map_eq_ok parsed
  obtain rfl : rs = [r] := single
  obtain ⟨t, split, read⟩ := readRoutes_singleton routes
  obtain rfl := eq_of_splitRoutes split
  cases t with
  | nil => cases read
  | cons c s =>
    obtain ⟨step, visible⟩ := starts c rfl
    rw [trimWhite_cons visible, readRoute_step step] at read
    obtain ⟨steps, read', rfl⟩ := exists_of_map_eq_ok read
    obtain ⟨written, few⟩ := stepsAt_of_readSteps read'
    have deepFew : (along .descendant steps).length ≤ (c :: Text.trimRight Byte.isWhite s).length + 3 := by
      rw [length_along]
      omega
    have trimmed : ∀ t : Text, Text.trimWhite (('/' : Byte) :: t) = ('/' : Byte) :: Text.trimRight Byte.isWhite t :=
      trimWhite_cons visible_slash
    refine ⟨rfl, written.ne_nil, written.along_self, parse_of_splitRoutes (splitRoutes_slash (splitRoutes_slash split)) ?_ ?_,
      parse_of_splitRoutes (splitRoutes_slash split) ?_ ?_⟩
    · simp [trimmed]
    · rw [trimmed, trimRight_cons visible_slash, trimRight_cons visible, readRoute_anywhere,
        readSteps_of_stepsAt (written.along .descendant) _ deepFew]
      rfl
    · simp [trimmed]
    · rw [trimmed, trimRight_cons visible, readRoute_anchored step, readSteps_of_stepsAt written _ (by omega)]
      rfl

/-! ## Attributes come last -/

theorem attributesLast_of_readRoute {t : Text} {r : Route} (h : readRoute t = .ok r) : AttributesLast r.steps := by
  have read : ∀ (absolute : Bool) {n : Nat} {axis : Axis} {rest : Text},
      (readSteps t n axis rest).map (⟨absolute, ·⟩) = .ok r → AttributesLast r.steps := by
    intro absolute n axis rest h
    obtain ⟨steps, read, rfl⟩ := exists_of_map_eq_ok h
    exact (stepsAt_of_readSteps read).1.attributesLast
  unfold readRoute at h
  dsimp only at h
  split_ifs at h
  · exact read _ h
  · exact read _ h
  · exact read _ h

/-- In an accepted path, steps to attributes are the last ones of their routes. -/
theorem attributesLast_of_parse {source : Text} {p : Path} (accepted : parse source = .ok p) :
    ∀ r ∈ p.routes, AttributesLast r.steps := by
  obtain ⟨rs, routes, rfl⟩ := exists_of_map_eq_ok accepted
  have all : ∀ {ts : List Text} {rs : List Route}, readRoutes source ts = .ok rs → ∀ r ∈ rs, AttributesLast r.steps := by
    intro ts
    induction ts with
    | nil =>
      intro rs h
      cases h
      simp
    | cons t ts ih =>
      intro rs h
      obtain ⟨r, rs', first, others, rfl⟩ := readRoutes_cons h
      exact List.forall_mem_cons.2 ⟨attributesLast_of_readRoute first, ih others⟩
  exact all routes

end Path

end Stencil
