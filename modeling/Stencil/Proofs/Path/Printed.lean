import Stencil.Proofs.Expr.Lexeme
import Stencil.Proofs.Path.Notation
import Stencil.Proofs.Text.Pieces
import Stencil.Proofs.Text.Trimmed

/-!
# Printing paths

Routes are printed step by step, with one or two slashes before a step, and with bars between routes; the value of
a predicate stands in quotes that are chosen for it. Routes that can be written are read back from their print
(`Path.parse_of_print`): names in them are names, the value of a predicate lacks the quotes that it stands in, and
predicates stand at steps to elements only.

The bars that separate routes are found before any route is read, by following quotes and brackets. A printed step
leaves no quote and no bracket open (`Path.Passes`), and so the bars found are those between the routes.
-/

namespace Stencil

/-! ## What can be written -/

/-- A name that can stand in a path. -/
structure Path.IsName (t : Text) : Prop where
  some : t ≠ []
  parts : ∀ c ∈ t, Path.isNamePart c = true

open Stencil.Path

/-- A single dot is no name of an element, as it stands for the element itself. -/
inductive NodeTest.Writable : NodeTest → Prop
  | element {n : Text} (name : IsName n) (noDot : n ≠ ".") : Writable (.element n)
  | anyElement : Writable .anyElement
  | self : Writable .self
  | text : Writable .text
  | attributeNamed {n : Text} (name : IsName n) : Writable (.attributeNamed n)
  | anyAttribute : Writable .anyAttribute

structure Predicate.Writable (q : Predicate) : Prop where
  key : IsName q.key
  /-- a kind of quote is not in the value -/
  quotable : ∀ v ∈ q.value?, ∃ quote, isQuote quote = true ∧ quote ∉ v

structure Step.Writable (s : Step) : Prop where
  test : s.test.Writable
  predicate : ∀ q ∈ s.predicate?, q.Writable
  placed : s.predicate?.isSome = true → s.test.isAttribute = false ∧ s.test ≠ .text

structure Route.Writable (r : Route) : Prop where
  some : r.steps ≠ []
  attributesLast : AttributesLast r.steps
  steps : ∀ s ∈ r.steps, s.Writable
  /-- An anchored route has one slash in front. -/
  anchored : r.absolute = true → ∀ s ∈ r.steps.head?, s.axis = .child

/-! ## Printing -/

def NodeTest.print : NodeTest → Text
  | element n => n
  | anyElement => "*"
  | self => "."
  | text => "text()"
  | attributeNamed n => ('@' : Byte) :: n
  | anyAttribute => "@*"

/-- What stands before a step that is not the first one of its route. -/
def Axis.print : Axis → Text
  | child => "/"
  | descendant => "//"

section

-- the quote in which a value is put
variable (mark : Text → Byte)

def Predicate.printValue : Option Text → Text
  | none => []
  | some v => ('=' : Byte) :: mark v :: (v ++ [mark v])

def Predicate.print (q : Predicate) : Text :=
  ('[' : Byte) :: ('@' : Byte) :: (q.key ++ (Predicate.printValue mark q.value? ++ [(']' : Byte)]))

def Step.printPredicate : Option Predicate → Text
  | none => []
  | some q => q.print mark

def Step.print (s : Step) : Text := s.test.print ++ Step.printPredicate mark s.predicate?

/-- The steps after the first one. -/
def Route.printMore (steps : List Step) : Text := steps.flatMap fun s => s.axis.print ++ s.print mark

/-- What stands before the first step. -/
def Route.lead (absolute : Bool) : Axis → Text
  | .child => if absolute then "/" else []
  | .descendant => "//"

def Route.print (r : Route) : Text :=
  match r.steps with
  | [] => []
  | s :: steps => Route.lead r.absolute s.axis ++ (s.print mark ++ Route.printMore mark steps)

def Path.print (routes : List Route) : Text := Text.join "|" (routes.map (Route.print mark))

end

/-- The quote for each value is a kind of quote that the value does not contain. -/
def Step.Suits (mark : Text → Byte) (s : Step) : Prop :=
  ∀ q ∈ s.predicate?, ∀ v ∈ q.value?, Path.isQuote (mark v) = true ∧ mark v ∉ v

def Path.Suits (mark : Text → Byte) (routes : List Route) : Prop := ∀ r ∈ routes, ∀ s ∈ r.steps, s.Suits mark

namespace Path

open Token (takeWhile_of_ends dropWhile_of_ends)

variable {mark : Text → Byte} {source rest t u : Text} {test : NodeTest} {s : Step} {steps : List Step} {r : Route}

/-! ## Bytes of names -/

/-- What a byte of a name is not. -/
theorem of_isNamePart {c : Byte} (h : isNamePart c = true) :
    c.isWhite = false ∧ isQuote c = false ∧ ∀ d ∈ (("@*/|[]" : String) : Text), c ≠ d := by
  revert h
  exact Byte.of_codes (p := fun c => isNamePart c = true → c.isWhite = false ∧ isQuote c = false ∧
    ∀ d ∈ (("@*/|[]" : String) : Text), c ≠ d) (by decide +kernel) c

/-- Neither a name nor what is printed after one goes on in the text. -/
def Ends (rest : Text) : Prop := ∀ c ∈ rest.head?, isNamePart c = false ∧ c ≠ '('

theorem Ends.part (h : Ends rest) : ∀ c ∈ rest.head?, isNamePart c = false := fun c hc => (h c hc).1

theorem ends_cons {c : Byte} (h : isNamePart c = false ∧ c ≠ '(') (t : Text) : Ends (c :: t) := by
  rintro _ ⟨⟩
  exact h

theorem ends_printPredicate (predicate? : Option Predicate) (h : Ends rest) :
    Ends (Step.printPredicate mark predicate? ++ rest) := by
  cases predicate? with
  | none => exact h
  | some q => exact ends_cons (by decide) _

/-- Something is printed for every test. -/
theorem print_ne_nil (writable : test.Writable) : test.print ≠ [] := by
  cases writable with
  | element name => exact name.some
  | _ => exact nofun

/-! ## Reading a printed step -/

/-- **A printed test is read back.** -/
theorem readTest_print (writable : test.Writable) (ends : Ends rest) :
    readTest source (test.print ++ rest) = .ok (test, rest) := by
  cases writable with
  | anyElement => rfl
  | text => rfl
  | anyAttribute => rfl
  | self =>
    have alone : (rest.head?.any isNamePart) = false := by
      rw [Option.any_eq_false]
      exact fun c hc => by simpa using ends.part c hc
    show readTest source (('.' : Byte) :: rest) = _
    rw [readTest]
    simp +decide [alone]
  | @attributeNamed n name =>
    obtain ⟨some, parts⟩ := name
    have first : ((n ++ rest).head? == Option.some ('*' : Byte)) = false := by
      cases n with
      | nil => exact absurd rfl some
      | cons c n =>
        have other := (of_isNamePart (parts c List.mem_cons_self)).2.2 '*' (by decide)
        simpa using other
    show readTest source (('@' : Byte) :: (n ++ rest)) = _
    rw [readTest]
    simp only [first, takeWhile_of_ends parts ends.part, dropWhile_of_ends parts ends.part, beq_self_eq_true,
      Bool.false_eq_true, if_true, if_false]
    rw [if_neg (by simpa using some)]
  | @element n name noDot =>
    obtain ⟨some, parts⟩ := name
    have taken : (n ++ rest).takeWhile isNamePart = n := takeWhile_of_ends parts ends.part
    have left : (n ++ rest).dropWhile isNamePart = rest := dropWhile_of_ends parts ends.part
    have noCall : ("()" : Text).isPrefixOf rest = false := by
      cases rest with
      | nil => rfl
      | cons c rest =>
        have other : (('(' : Byte) == c) = false := beq_eq_false_iff_ne.2 (Ne.symm (ends c rfl).2)
        show ((('(' : Byte) == c) && _) = false
        rw [other, Bool.false_and]
    show readTest source (n ++ rest) = _
    cases n with
    | nil => exact absurd rfl some
    | cons c n =>
      have special := (of_isNamePart (parts c List.mem_cons_self)).2.2
      have noSelf : (c == '.' && !(n ++ rest).head?.any isNamePart) = false := by
        cases n with
        | nil =>
          have other : c ≠ '.' := fun same => noDot (by rw [same]; rfl)
          simpa using fun same => absurd same other
        | cons d n => simp [parts d (by simp)]
      rw [List.cons_append] at taken left ⊢
      rw [readTest]
      simp only [taken, left, noCall, noSelf, List.isEmpty_cons, Bool.and_false, Bool.false_eq_true, if_false]
      rw [if_neg (by simpa using special '@' (by decide)), if_neg (by simpa using special '*' (by decide))]

/-- A value in quotes it does not contain is read back. -/
theorem readValue_quoted {quote : Byte} {v : Text} (quotes : isQuote quote = true) (free : quote ∉ v) :
    readValue source (quote :: (v ++ quote :: rest)) = .ok (v, rest) := by
  have before : ∀ c ∈ v, (c != quote) = true := by
    intro c hc
    have other : c ≠ quote := fun same => free (same ▸ hc)
    simpa using other
  have ends : ∀ c ∈ (quote :: rest).head?, (c != quote) = false := by
    rintro c ⟨⟩
    simp
  have taken : (v ++ quote :: rest).takeWhile (· != quote) = v := takeWhile_of_ends before ends
  have left : (v ++ quote :: rest).dropWhile (· != quote) = quote :: rest := dropWhile_of_ends before ends
  rw [readValue]
  simp [quotes, taken, left]

/-- **A printed predicate is read back.** -/
theorem readPredicate_print {q : Predicate} (writable : q.Writable) (placed : test.isAttribute = false ∧ test ≠ .text)
    (suits : ∀ v ∈ q.value?, isQuote (mark v) = true ∧ mark v ∉ v) :
    readPredicate source test (q.print mark ++ rest) = .ok (some q, rest) := by
  obtain ⟨key, value?⟩ := q
  obtain ⟨some, parts⟩ := writable.key
  have misplaced : (test.isAttribute || decide (test = .text)) = false := by simpa using placed
  have closes : ∀ p : Predicate, readClose source p ((']' : Byte) :: rest) = .ok (.some p, rest) := fun p => rfl
  have read : ∀ after : Text, Ends after →
      (key ++ after).takeWhile isNamePart = key ∧ (key ++ after).dropWhile isNamePart = after := fun after ends =>
    ⟨takeWhile_of_ends parts ends.part, dropWhile_of_ends parts ends.part⟩
  have first : (key.isEmpty) = false := by simpa using some
  cases value? with
  | none =>
    have shape : Predicate.print mark ⟨key, none⟩ ++ rest =
        ('[' : Byte) :: ('@' : Byte) :: (key ++ (']' : Byte) :: rest) := by
      simp [Predicate.print, Predicate.printValue]
    obtain ⟨taken, left⟩ := read ((']' : Byte) :: rest) (ends_cons (by decide) _)
    rw [shape, readPredicate]
    simp +decide [misplaced, taken, left, first, closes]
  | some v =>
    obtain ⟨quotes, free⟩ := suits v rfl
    have shape : Predicate.print mark ⟨key, Option.some v⟩ ++ rest =
        ('[' : Byte) :: ('@' : Byte) :: (key ++ ('=' : Byte) :: mark v :: (v ++ mark v :: (']' : Byte) :: rest)) := by
      simp [Predicate.print, Predicate.printValue]
    obtain ⟨taken, left⟩ := read (('=' : Byte) :: mark v :: (v ++ mark v :: (']' : Byte) :: rest)) (ends_cons (by decide) _)
    rw [shape, readPredicate]
    simp +decide [misplaced, taken, left, first, closes, readValue_quoted quotes free]

/-- A printed step is read back, whatever it is part of. -/
theorem stepAt_print (writable : s.Writable) (suits : s.Suits mark) (ends : Ends rest) (open_ : rest.head? ≠ some '[') :
    StepAt (s.print mark ++ rest) s.test s.predicate? rest := by
  obtain ⟨axis, test, predicate?⟩ := s
  refine ⟨Step.printPredicate mark predicate? ++ rest, fun source => ?_, fun source => ?_⟩
  · show readTest source (test.print ++ Step.printPredicate mark predicate? ++ rest) = _
    rw [List.append_assoc]
    exact readTest_print writable.test (ends_printPredicate predicate? ends)
  · cases predicate? with
    | none =>
      show readPredicate source test rest = _
      rw [readPredicate, if_pos (by simpa using open_)]
    | some q => exact readPredicate_print (writable.predicate q rfl) (writable.placed rfl) (suits q rfl)

/-! ## Reading a printed route -/

/-- A printed step starts with a byte that is seen, and that no route starts with. -/
theorem exists_print (writable : s.Writable) (mark : Text → Byte) :
    ∃ c u, s.print mark = c :: u ∧ c ≠ '/' ∧ c.isWhite = false := by
  obtain ⟨axis, test, predicate?⟩ := s
  have named : ∀ n : Text, IsName n → ∃ c u, n ++ Step.printPredicate mark predicate? = c :: u ∧ c ≠ '/' ∧ c.isWhite = false := by
    rintro (_ | ⟨c, n⟩) ⟨some, parts⟩
    · exact absurd rfl some
    · have part := of_isNamePart (parts c List.mem_cons_self)
      exact ⟨c, _, rfl, part.2.2 '/' (by decide), part.1⟩
  cases writable.test with
  | element name => exact named _ name
  | _ => exact ⟨_, _, rfl, by decide, by decide⟩

theorem last_append {t u : Text} (some : u ≠ []) (last : ∀ c ∈ u.getLast?, c.isWhite = false) :
    ∀ c ∈ (t ++ u).getLast?, c.isWhite = false := by
  rw [List.getLast?_append_of_ne_nil t some]
  exact last

/-- A printed step ends with a byte that is seen. -/
theorem last_print (writable : s.Writable) : ∀ c ∈ (s.print mark).getLast?, c.isWhite = false := by
  obtain ⟨axis, test, predicate?⟩ := s
  have named : ∀ n : Text, IsName n → ∀ c ∈ n.getLast?, c.isWhite = false := fun n name c last =>
    (of_isNamePart (name.parts c (List.mem_of_getLast? last))).1
  cases predicate? with
  | some q =>
    have closed : Step.print mark ⟨axis, test, some q⟩ =
        (test.print ++ (('[' : Byte) :: ('@' : Byte) :: (q.key ++ Predicate.printValue mark q.value?))) ++ [(']' : Byte)] := by
      simp [Step.print, Step.printPredicate, Predicate.print]
    rw [closed]
    apply last_append (List.cons_ne_nil _ _)
    rintro c ⟨⟩
    decide
  | none =>
    show ∀ c ∈ (test.print ++ []).getLast?, _
    rw [List.append_nil]
    cases writable.test with
    | element name => exact named _ name
    | @attributeNamed n name => exact last_append (t := [('@' : Byte)]) name.some (named n name)
    | _ =>
      rintro c ⟨⟩
      decide

/-- So do steps one after the other. -/
theorem last_printMore (writable : ∀ x ∈ s :: steps, x.Writable) :
    ∀ c ∈ (s.print mark ++ Route.printMore mark steps).getLast?, c.isWhite = false := by
  induction steps generalizing s with
  | nil =>
    show ∀ c ∈ (s.print mark ++ []).getLast?, _
    rw [List.append_nil]
    exact last_print (writable s List.mem_cons_self)
  | cons next steps ih =>
    have others := (List.forall_mem_cons.1 writable).2
    obtain ⟨c, u, first, -⟩ := exists_print (others next List.mem_cons_self) mark
    have printed : s.print mark ++ Route.printMore mark (next :: steps) =
        s.print mark ++ next.axis.print ++ (next.print mark ++ Route.printMore mark steps) := by
      simp [Route.printMore]
    rw [printed]
    apply last_append
    · rw [first]
      exact nofun
    · exact ih others

theorem separator_print (writable : s.Writable) (more : Text) :
    separator? (s.axis.print ++ (s.print mark ++ more)) = some (s.axis, s.print mark ++ more) := by
  obtain ⟨c, u, first, other, -⟩ := exists_print writable mark
  cases axis : s.axis with
  | descendant => rfl
  | child =>
    have deep : ("//" : Text).isPrefixOf (Axis.print .child ++ (s.print mark ++ more)) = false := by
      rw [first]
      show (true && ((('/' : Byte) == c) && _)) = false
      simp [other.symm]
    rw [separator?, deep]
    rfl

/-- **Printed steps are read back.** -/
theorem stepsAt_print (writable : ∀ x ∈ s :: steps, x.Writable) (suits : ∀ x ∈ s :: steps, x.Suits mark)
    (last : AttributesLast (s :: steps)) : StepsAt s.axis (s.print mark ++ Route.printMore mark steps) (s :: steps) := by
  induction steps generalizing s with
  | nil =>
    apply StepsAt.last
    exact stepAt_print (writable s List.mem_cons_self) (suits s List.mem_cons_self) nofun nofun
  | cons next steps ih =>
    obtain ⟨here, others⟩ := List.forall_mem_cons.1 writable
    obtain ⟨suitsHere, suitsOthers⟩ := List.forall_mem_cons.1 suits
    have tail : AttributesLast (next :: steps) := fun x hx => last x (List.mem_cons_of_mem s hx)
    have printed : Route.printMore mark (next :: steps) =
        next.axis.print ++ (next.print mark ++ Route.printMore mark steps) := by
      simp [Route.printMore]
    have starts : ∃ u, Route.printMore mark (next :: steps) = ('/' : Byte) :: u := by
      rw [printed]
      cases next.axis with
      | child | descendant => exact ⟨_, rfl⟩
    obtain ⟨u, slash⟩ := starts
    refine .more (show StepAt _ _ _ (Route.printMore mark (next :: steps)) from stepAt_print here suitsHere ?_ ?_) ?_
      (last s (by simp)) ?_ (ih others suitsOthers tail)
    · rw [slash]
      exact ends_cons (by decide) u
    · rw [slash]
      intro same
      exact absurd (Option.some.inj same) (by decide)
    · rw [slash]
      exact nofun
    · rw [printed]
      exact separator_print (others next List.mem_cons_self) _

theorem length_steps (steps : List Step) : steps.length ≤ (Route.printMore mark steps).length := by
  induction steps with
  | nil => exact Nat.zero_le _
  | cons s steps ih =>
    have some : 0 < s.axis.print.length := by cases s.axis <;> decide
    rw [Route.printMore, List.flatMap_cons, List.length_append, List.length_append, List.length_cons]
    rw [Route.printMore] at ih
    omega

/-- What stands before the steps of a route says whether the route is anchored, and the axis of the first step. -/
theorem readRoute_of_stepsAt {absolute : Bool} {axis : Axis} {c : Byte} {u : Text} (other : c ≠ '/')
    (anchored : absolute = true → axis = .child) (written : StepsAt axis (c :: u) steps)
    (few : steps.length ≤ (c :: u).length) :
    readRoute (Route.lead absolute axis ++ c :: u) = .ok ⟨absolute, steps⟩ := by
  cases axis with
  | descendant =>
    have relative : absolute = false := by
      cases absolute with
      | false => rfl
      | true => exact absurd (anchored rfl) nofun
    show readRoute (('/' : Byte) :: ('/' : Byte) :: (c :: u)) = _
    rw [readRoute_anywhere, readSteps_of_stepsAt written _ (Nat.le_add_right_of_le few), relative]
    rfl
  | child =>
    cases absolute with
    | false =>
      show readRoute (c :: u) = _
      rw [readRoute_step other, readSteps_of_stepsAt written _ (Nat.le_add_right_of_le few)]
      rfl
    | true =>
      show readRoute (('/' : Byte) :: c :: u) = _
      rw [readRoute_anchored other, readSteps_of_stepsAt written _ (Nat.le_add_right_of_le few)]
      rfl

/-- **A printed route is read back.** -/
theorem readRoute_print (writable : r.Writable) (suits : ∀ s ∈ r.steps, s.Suits mark) :
    readRoute (r.print mark) = .ok r := by
  obtain ⟨absolute, steps⟩ := r
  cases steps with
  | nil => exact absurd rfl writable.some
  | cons s steps =>
    obtain ⟨c, u, first, other, -⟩ := exists_print (writable.steps s List.mem_cons_self) mark
    have written := stepsAt_print writable.steps suits writable.attributesLast
    have many : steps.length ≤ (Route.printMore mark steps).length := length_steps steps
    show readRoute (Route.lead absolute s.axis ++ (s.print mark ++ Route.printMore mark steps)) = _
    rw [first, List.cons_append] at written ⊢
    apply readRoute_of_stepsAt other (fun anchored => writable.anchored anchored s rfl) written
    rw [List.length_cons, List.length_cons, List.length_append]
    omega

/-! ## Bars between routes -/

/-- Puts bytes in front of the first of a list of texts. -/
def onFirst (t : Text) (ts : List Text) : List Text := t.foldr consFirst ts

theorem onFirst_append (t u : Text) (ts : List Text) : onFirst (t ++ u) ts = onFirst t (onFirst u ts) :=
  List.foldr_append

theorem onFirst_cons (t u : Text) (ts : List Text) : onFirst t (u :: ts) = (t ++ u) :: ts := by
  induction t with
  | nil => rfl
  | cons c t ih =>
    show consFirst c (onFirst t (u :: ts)) = _
    rw [ih]
    rfl

/-- The text has no bar that separates routes, and leaves no quote and no bracket open, at any depth of brackets. -/
def Passes (t : Text) : Prop :=
  ∀ depth rest, splitRoutes none depth (t ++ rest) = onFirst t (splitRoutes none depth rest)

theorem passes_nil : Passes [] := fun _ _ => rfl

theorem Passes.append (h : Passes t) (h' : Passes u) : Passes (t ++ u) := by
  intro depth rest
  rw [List.append_assoc, h, h', onFirst_append]

/-- A byte that separates no routes and needs no other one to close it. -/
def isPlain (c : Byte) : Bool := !(isQuote c || c == '[' || c == ']' || c == '|')

theorem isPlain_iff {c : Byte} : isPlain c = true ↔ isQuote c = false ∧ c ≠ '[' ∧ c ≠ ']' ∧ c ≠ '|' := by
  simp [isPlain, and_assoc]

theorem passes_plain (plain : ∀ c ∈ t, isPlain c = true) : Passes t := by
  induction t with
  | nil => exact passes_nil
  | cons c t ih =>
    obtain ⟨first, others⟩ := List.forall_mem_cons.1 plain
    obtain ⟨quote, opens, closes, bar⟩ := isPlain_iff.1 first
    intro depth rest
    rw [List.cons_append, splitRoutes]
    simp only [quote, Bool.false_eq_true, if_false]
    rw [if_neg (by simpa using opens), if_neg (by simpa using closes), if_neg (by simp [bar]), ih others]
    rfl

theorem IsName.plain (name : IsName t) : ∀ c ∈ t, isPlain c = true := by
  intro c hc
  obtain ⟨-, quote, special⟩ := of_isNamePart (name.parts c hc)
  exact isPlain_iff.2 ⟨quote, special '[' (by decide), special ']' (by decide), special '|' (by decide)⟩

theorem IsName.passes (name : IsName t) : Passes t := passes_plain name.plain

/-- Inside quotes everything passes. -/
theorem splitRoutes_quoted {quote : Byte} (free : quote ∉ t) (depth : Nat) (rest : Text) :
    splitRoutes (some quote) depth (t ++ quote :: rest) = onFirst (t ++ [quote]) (splitRoutes none depth rest) := by
  induction t with
  | nil =>
    rw [List.nil_append, splitRoutes]
    simp only [beq_self_eq_true, if_true]
    rfl
  | cons c t ih =>
    obtain ⟨other, later⟩ := not_or.1 (mt List.mem_cons.2 free)
    rw [List.cons_append, splitRoutes]
    rw [if_neg (by simpa using Ne.symm other), ih later]
    rfl

theorem passes_quoted {quote : Byte} (quotes : isQuote quote = true) (free : quote ∉ t) :
    Passes (quote :: (t ++ [quote])) := by
  intro depth rest
  have opened : splitRoutes none depth (quote :: (t ++ [quote]) ++ rest) =
      consFirst quote (splitRoutes (some quote) depth (t ++ quote :: rest)) := by
    rw [List.cons_append, List.append_assoc, splitRoutes]
    simp only [quotes, if_true]
    rfl
  rw [opened, splitRoutes_quoted free]
  rfl

/-- Brackets may stand around what passes. -/
theorem Passes.bracketed (h : Passes t) : Passes (('[' : Byte) :: (t ++ [(']' : Byte)])) := by
  intro depth rest
  have opened : splitRoutes none depth (('[' : Byte) :: (t ++ [(']' : Byte)]) ++ rest) =
      consFirst '[' (splitRoutes none (depth + 1) (t ++ (']' : Byte) :: rest)) := by
    rw [List.cons_append, List.append_assoc]
    rfl
  have closed : splitRoutes none (depth + 1) ((']' : Byte) :: rest) = consFirst ']' (splitRoutes none depth rest) := rfl
  rw [opened, h, closed]
  show _ = consFirst '[' (onFirst (t ++ [(']' : Byte)]) _)
  rw [onFirst_append]
  rfl

theorem passes_print_test (writable : test.Writable) : Passes test.print := by
  cases writable with
  | element name => exact name.passes
  | attributeNamed name => exact (passes_plain (t := [('@' : Byte)]) (List.all_eq_true.1 rfl)).append name.passes
  | _ => exact passes_plain (List.all_eq_true.1 rfl)

theorem passes_print_predicate {q : Predicate} (writable : q.Writable)
    (suits : ∀ v ∈ q.value?, isQuote (mark v) = true ∧ mark v ∉ v) : Passes (q.print mark) := by
  have value : Passes (Predicate.printValue mark q.value?) := by
    cases found : q.value? with
    | none => exact passes_nil
    | some v =>
      obtain ⟨quotes, free⟩ := suits v found
      exact (passes_plain (t := [('=' : Byte)]) (List.all_eq_true.1 rfl)).append (passes_quoted quotes free)
  have content := (passes_plain (t := [('@' : Byte)]) (List.all_eq_true.1 rfl)).append (writable.key.passes.append value)
  have printed : q.print mark = ('[' : Byte) :: ([('@' : Byte)] ++ (q.key ++ Predicate.printValue mark q.value?) ++ [(']' : Byte)]) := by
    simp [Predicate.print]
  rw [printed]
  exact content.bracketed

theorem passes_print_step (writable : s.Writable) (suits : s.Suits mark) : Passes (s.print mark) := by
  apply (passes_print_test writable.test).append
  cases found : s.predicate? with
  | none => exact passes_nil
  | some q => exact passes_print_predicate (writable.predicate q found) (suits q found)

theorem passes_printMore (writable : ∀ s ∈ steps, s.Writable) (suits : ∀ s ∈ steps, s.Suits mark) :
    Passes (Route.printMore mark steps) := by
  induction steps with
  | nil => exact passes_nil
  | cons s steps ih =>
    obtain ⟨here, others⟩ := List.forall_mem_cons.1 writable
    obtain ⟨suitsHere, suitsOthers⟩ := List.forall_mem_cons.1 suits
    have slashes : Passes s.axis.print := by
      cases s.axis with
      | child | descendant => exact passes_plain (List.all_eq_true.1 rfl)
    rw [Route.printMore, List.flatMap_cons]
    exact (slashes.append (passes_print_step here suitsHere)).append (ih others suitsOthers)

theorem passes_print_route (writable : r.Writable) (suits : ∀ s ∈ r.steps, s.Suits mark) : Passes (r.print mark) := by
  obtain ⟨absolute, steps⟩ := r
  cases steps with
  | nil => exact passes_nil
  | cons s steps =>
    obtain ⟨here, others⟩ := List.forall_mem_cons.1 writable.steps
    obtain ⟨suitsHere, suitsOthers⟩ := List.forall_mem_cons.1 suits
    have lead : Passes (Route.lead absolute s.axis) := by
      cases s.axis with
      | descendant => exact passes_plain (t := "//") (List.all_eq_true.1 rfl)
      | child =>
        cases absolute with
        | true => exact passes_plain (t := "/") (List.all_eq_true.1 rfl)
        | false => exact passes_nil
    exact lead.append ((passes_print_step here suitsHere).append (passes_printMore others suitsOthers))

/-- **The bars found are those between the routes.** -/
theorem splitRoutes_join {ts : List Text} (some : ts ≠ []) (passes : ∀ t ∈ ts, Passes t) :
    splitRoutes none 0 (Text.join "|" ts) = ts := by
  induction ts with
  | nil => exact absurd rfl some
  | cons t ts ih =>
    obtain ⟨here, others⟩ := List.forall_mem_cons.1 passes
    cases ts with
    | nil =>
      have alone := here 0 []
      rw [List.append_nil] at alone
      rw [Text.join_singleton, alone, splitRoutes, onFirst_cons, List.append_nil]
    | cons u ts =>
      have bar : ∀ rest, splitRoutes none 0 (("|" : Text) ++ rest) = [] :: splitRoutes none 0 rest := fun _ => rfl
      rw [Text.join_cons_cons, here, bar, ih (List.cons_ne_nil u ts) others, onFirst_cons, List.append_nil]

/-! ## Paths -/

/-- Nothing is trimmed from a printed route, and something is printed. -/
theorem trimWhite_print (writable : r.Writable) (mark : Text → Byte) :
    Text.trimWhite (r.print mark) = r.print mark ∧ r.print mark ≠ [] := by
  obtain ⟨absolute, steps⟩ := r
  cases steps with
  | nil => exact absurd rfl writable.some
  | cons s steps =>
    obtain ⟨c, u, first, -, visible⟩ := exists_print (writable.steps s List.mem_cons_self) mark
    have last : ∀ c ∈ (s.print mark ++ Route.printMore mark steps).getLast?, c.isWhite = false :=
      last_printMore writable.steps
    have printed : Route.print mark ⟨absolute, s :: steps⟩ =
        Route.lead absolute s.axis ++ (s.print mark ++ Route.printMore mark steps) := rfl
    have some : s.print mark ++ Route.printMore mark steps ≠ [] := by
      rw [first]
      exact nofun
    rw [printed]
    refine ⟨Text.trim_of_ends ?_ (last_append some last), by simp [some]⟩
    rw [first]
    cases s.axis with
    | descendant =>
      rintro d ⟨⟩
      decide
    | child =>
      cases absolute with
      | true =>
        rintro d ⟨⟩
        decide
      | false =>
        rintro d ⟨⟩
        exact visible

theorem readRoutes_print {rs : List Route} (writable : ∀ r ∈ rs, r.Writable) (suits : Suits mark rs) :
    readRoutes source (rs.map (Route.print mark)) = .ok rs := by
  induction rs with
  | nil => rfl
  | cons r rs ih =>
    obtain ⟨here, others⟩ := List.forall_mem_cons.1 writable
    obtain ⟨suitsHere, suitsOthers⟩ := List.forall_mem_cons.1 suits
    obtain ⟨whole, some⟩ := trimWhite_print here mark
    rw [List.map_cons, readRoutes, whole, readRoute_print here suitsHere]
    simp only [ih others suitsOthers]
    rw [if_neg (by simpa using some)]
    rfl

/-- Printed routes are read back. -/
theorem parse_of_print {rs : List Route} (some : rs ≠ []) (writable : ∀ r ∈ rs, r.Writable) (suits : Suits mark rs) :
    parse (print mark rs) = .ok ⟨print mark rs, rs⟩ := by
  have passes : ∀ t ∈ rs.map (Route.print mark), Passes t := by
    intro t ht
    obtain ⟨r, hr, rfl⟩ := List.mem_map.1 ht
    exact passes_print_route (writable r hr) (suits r hr)
  have split : splitRoutes none 0 (print mark rs) = rs.map (Route.print mark) :=
    splitRoutes_join (by simpa using some) passes
  rw [parse, split, readRoutes_print writable suits]
  rfl

end Path

end Stencil
