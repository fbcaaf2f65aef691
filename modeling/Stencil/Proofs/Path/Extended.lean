import Stencil.Proofs.Path.RoundTrip

/-!
# Paths that go on

A path of one route stays what it is when it goes on with two slashes and more steps: its own steps are read as
before, and then those that follow (`Path.parse_extended`).
-/

namespace Stencil

namespace Path

variable {rest after tail : Text} {s : Step} {axis next : Axis} {steps more : List Step}

/-! ## Steps before a slash -/

theorem eq_of_separator (h : separator? after = some (next, tail)) : after = next.print ++ tail := by
  unfold separator? at h
  split_ifs at h with deep child
  · cases h
    obtain ⟨tail, rfl⟩ := List.isPrefixOf_iff_prefix.1 deep
    rfl
  · cases h
    cases after with
    | nil => cases child
    | cons c after =>
      have first : c = '/' := by simpa using child
      rw [first]
      rfl

/-- What is made of steps starts with the print of the first one. -/
theorem StepsAt.exists_print (h : StepsAt axis rest steps) : ∃ s ∈ steps.head?, s.axis = axis ∧ s.Writable ∧
    ∃ mark after, rest = s.print mark ++ after := by
  cases h with
  | @last _ _ test predicate? step | @more _ _ _ _ _ test predicate? _ step =>
    obtain ⟨writable, quote, -, written⟩ := StepAt.printed (s := ⟨axis, test, predicate?⟩) step
    exact ⟨⟨axis, test, predicate?⟩, rfl, rfl, writable, _, _, written⟩

/-- A slash, or nothing. -/
def Divides (after : Text) : Prop := ∀ c ∈ after.head?, c = '/'

/-- A step before a slash, or at the end, is the same before any other slash. -/
theorem StepAt.goesOn (h : StepAt rest s.test s.predicate? after) {after' : Text} (divides : Divides after') :
    ∃ t, rest = t ++ after ∧ StepAt (t ++ after') s.test s.predicate? after' := by
  obtain ⟨writable, quote, suits, written⟩ := h.printed
  refine ⟨_, written, stepAt_print writable suits ?_ ?_⟩
  · intro c hc
    rw [divides c hc]
    decide
  · intro opened
    exact absurd (divides _ opened) (by decide)

/-- **More steps may follow where no attributes are asked for.** -/
theorem StepsAt.extended (h : StepsAt axis rest steps) (asksNone : ∀ s ∈ steps, s.test.isAttribute = false)
    (others : StepsAt .descendant tail more) : StepsAt axis (rest ++ (("//" : Text) ++ tail)) (steps ++ more) := by
  obtain ⟨s', -, axis', writable', mark', after', first'⟩ := others.exists_print
  have separated : separator? (("//" : Text) ++ tail) = some (.descendant, tail) := by
    have printed : separator? (s'.axis.print ++ (s'.print mark' ++ after')) = some (s'.axis, s'.print mark' ++ after') :=
      separator_print writable' after'
    rw [axis', ← first'] at printed
    exact printed
  induction h with
  | @last axis rest test predicate? step =>
    have divides : Divides (("//" : Text) ++ tail) := by
      rintro c ⟨⟩
      rfl
    obtain ⟨t, rfl, goesOn⟩ := StepAt.goesOn (s := ⟨axis, test, predicate?⟩) step divides
    rw [List.append_nil]
    exact .more goesOn nofun (asksNone _ List.mem_cons_self) separated others
  | @more axis next rest after tail' test predicate? steps step some asks separator rest' ih =>
    obtain ⟨-, asksRest⟩ := List.forall_mem_cons.1 asksNone
    obtain ⟨s, -, rfl, writable, mark, after'', first⟩ := rest'.exists_print
    have written := eq_of_separator separator
    have divides : Divides (after ++ (("//" : Text) ++ tail)) := by
      rw [written]
      cases s.axis with
      | child | descendant =>
        rintro c ⟨⟩
        rfl
    obtain ⟨t, rfl, goesOn⟩ := StepAt.goesOn (s := ⟨axis, test, predicate?⟩) step divides
    rw [List.append_assoc]
    refine .more goesOn (by simp [some]) asks ?_ (ih asksRest)
    rw [written, first, List.append_assoc, List.append_assoc]
    exact separator_print writable _

theorem StepAt.length_lt (h : StepAt rest s.test s.predicate? after) : after.length < rest.length := by
  obtain ⟨afterTest, first, second⟩ := h
  exact Path.length_lt_of_read (first []) (second [])

/-- Each step takes at least a byte. -/
theorem StepsAt.length_le (h : StepsAt axis rest steps) : steps.length ≤ rest.length := by
  induction h with
  | @last axis rest test predicate? step =>
    have less := StepAt.length_lt (s := ⟨axis, test, predicate?⟩) step
    exact Nat.succ_le_of_lt less
  | @more axis next rest after tail test predicate? steps step _ _ separator _ ih =>
    have less := StepAt.length_lt (s := ⟨axis, test, predicate?⟩) step
    rw [eq_of_separator separator, List.length_append] at less
    rw [List.length_cons]
    omega

/-! ## Routes and paths -/

theorem readRoute_extended {t : Text} {r : Route} (h : readRoute t = .ok r)
    (asksNone : ∀ s ∈ r.steps, s.test.isAttribute = false) (others : StepsAt .descendant tail more) :
    readRoute (t ++ (("//" : Text) ++ tail)) = .ok ⟨r.absolute, r.steps ++ more⟩ := by
  obtain ⟨axis, rest, rfl, anchored, written⟩ := stepsAt_of_readRoute h
  obtain ⟨s, -, -, writable, mark, after, first⟩ := written.exists_print
  obtain ⟨c, u, print, other, -⟩ := Path.exists_print writable mark
  have longer := written.extended asksNone others
  have few := longer.length_le
  rw [first, print] at longer few ⊢
  rw [List.append_assoc]
  exact readRoute_of_stepsAt other anchored longer few

/-- A text without quotes, brackets and bars is in one piece, whatever was opened before it. -/
theorem splitRoutes_plain {u : Text} (plain : ∀ c ∈ u, isPlain c = true)
    (quote : Option Byte) (depth : Nat) : splitRoutes quote depth u = [u] := by
  induction u generalizing quote with
  | nil => rfl
  | cons c u ih =>
    obtain ⟨first, others⟩ := List.forall_mem_cons.1 plain
    obtain ⟨noQuote, opens, closes, bar⟩ := isPlain_iff.1 first
    cases quote with
    | some q =>
      rw [splitRoutes, ih others]
      rfl
    | none =>
      rw [splitRoutes]
      simp only [noQuote, Bool.false_eq_true, if_false]
      rw [if_neg (by simpa using opens), if_neg (by simpa using closes), if_neg (by simp [bar]), ih others]
      rfl

/-- A path of one route is still one route with such a text behind it. -/
theorem splitRoutes_append {u : Text} (plain : ∀ c ∈ u, isPlain c = true)
    {quote : Option Byte} {depth : Nat} {t : Text} (single : splitRoutes quote depth t = [t]) :
    splitRoutes quote depth (t ++ u) = [t ++ u] := by
  induction t generalizing quote depth with
  | nil => exact splitRoutes_plain plain quote depth
  | cons c t ih =>
    have shorter : ∀ quote depth, consFirst c (splitRoutes quote depth t) = [c :: t] →
        consFirst c (splitRoutes quote depth (t ++ u)) = [c :: (t ++ u)] := by
      intro quote depth h
      obtain ⟨t', alone, same⟩ := consFirst_eq_singleton (splitRoutes_ne_nil quote depth t) h
      obtain ⟨-, rfl⟩ := List.cons.inj same
      rw [ih alone]
      rfl
    rw [List.cons_append]
    unfold splitRoutes at single ⊢
    split at single
    · exact shorter _ _ single
    · split_ifs at single ⊢
      · exact shorter _ _ single
      · exact shorter _ _ single
      · exact shorter _ _ single
      · exact absurd (List.cons.inj single).2 (splitRoutes_ne_nil _ _ _)
      · exact shorter _ _ single

/-- Only what is in front of a text is trimmed when it goes on. -/
theorem trimWhite_append {t u : Text} (some : t ≠ []) (last : ∀ c ∈ t.getLast?, c.isWhite = false)
    (last' : ∀ c ∈ (t ++ u).getLast?, c.isWhite = false) : Text.trimWhite (t ++ u) = Text.trimWhite t ++ u := by
  have seen : t.dropWhile Byte.isWhite ≠ [] := by
    intro none
    have white := List.dropWhile_eq_nil_iff.1 none (t.getLast some) (List.getLast_mem some)
    rw [last _ (List.getLast?_eq_some_getLast some)] at white
    cases white
  have front : Text.trimLeft Byte.isWhite (t ++ u) = Text.trimLeft Byte.isWhite t ++ u := by
    rw [Text.trimLeft, List.dropWhile_append, if_neg (by simpa using seen)]
    rfl
  rw [Text.trimWhite, Text.trimWhite, Text.trim, Text.trim, Text.trimRight_of_last last, Text.trimRight_of_last last', front]

/-- **A path of one route goes on with more steps.** -/
theorem parse_extended {P : Text} {p : Path} {r : Route} (parsed : parse P = .ok p) (single : p.routes = [r])
    (asksNone : ∀ s ∈ r.steps, s.test.isAttribute = false) (ends : ∀ c ∈ P.getLast?, c.isWhite = false)
    (others : StepsAt .descendant tail more) (last : ∀ c ∈ tail.getLast?, c.isWhite = false)
    (plain : ∀ c ∈ tail, isPlain c = true) :
    parse (P ++ (("//" : Text) ++ tail)) = .ok ⟨P ++ (("//" : Text) ++ tail), [⟨r.absolute, r.steps ++ more⟩]⟩ := by
  obtain ⟨rs, routes, rfl⟩ := exists_of_map_eq_ok parsed
  obtain rfl : rs = [r] := single
  obtain ⟨t, split, read⟩ := readRoutes_singleton routes
  obtain rfl := eq_of_splitRoutes split
  have some : t ≠ [] := by
    rintro rfl
    cases read
  have filled : tail ≠ [] := List.ne_nil_of_length_pos (Nat.lt_of_lt_of_le (List.length_pos_iff.2 others.ne_nil) others.length_le)
  have plain' : ∀ c ∈ ("//" : Text) ++ tail, isPlain c = true :=
    List.forall_mem_cons.2 ⟨rfl, List.forall_mem_cons.2 ⟨rfl, plain⟩⟩
  have trimmed : Text.trimWhite (t ++ (("//" : Text) ++ tail)) = Text.trimWhite t ++ (("//" : Text) ++ tail) :=
    trimWhite_append some ends (last_append nofun (last_append filled last))
  refine parse_of_splitRoutes (splitRoutes_append plain' split) ?_ ?_
  · rw [trimmed]
    simp [filled]
  · rw [trimmed]
    exact readRoute_extended read asksNone others

end Path

end Stencil
