import Stencil.Proofs.Expr.Dotted
import Stencil.Proofs.Template.History
import Stencil.Proofs.Template.Located

/-!
# Interpolations of the short form

A dollar before a name and its members interpolates them. What is taken for them are words with points between
them (`Interpolation.dotted_of_mem_shortForms`), and a word may be a keyword. So the short form is an expression if and
only if no keyword stands in it, apart from a constant at its start, and the expansion of a template can then fail at it
only because it can't be evaluated (`Interpolation.shortForm_parses_iff`). A text with a dollar before any other keyword
makes the expansion fail with a syntax error (`Interpolation.shortForm_keyword`).
-/

namespace Stencil

open Token

namespace Interpolation

/-- The expressions of the short form in a text. -/
def shortForms (s : Text) : List Expression := (cutBraced 0 s).flatMap fun
  | .literal t => (cutShort 0 t).filterMap Fragment.expression?
  | .expression _ => []

/-- The expressions in braces in a text. -/
def bracedForms (s : Text) : List Expression := (cutBraced 0 s).filterMap Fragment.expression?

/-- The words of an expression between its points. -/
def words (x : Expression) : List Text := Text.pieces '.' x.source

variable {s t text : Text} {x : Expression}

/-- The expressions of a text are of one of the two forms. -/
theorem mem_interpolate_iff : .expression x ∈ interpolate s ↔ x ∈ shortForms s ∨ x ∈ bracedForms s := by
  unfold interpolate shortForms bracedForms
  rw [List.mem_flatMap, List.mem_flatMap, List.mem_filterMap]
  constructor
  · rintro ⟨f, mem, found⟩
    cases f with
    | literal t => exact .inl ⟨_, mem, List.mem_filterMap.2 ⟨_, found, rfl⟩⟩
    | expression y =>
      obtain rfl : x = y := by simpa using found
      exact .inr ⟨_, mem, rfl⟩
  · rintro (⟨f, mem, found⟩ | ⟨f, mem, found⟩)
    · cases f with
      | literal t =>
        obtain ⟨g, there, same⟩ := List.mem_filterMap.1 found
        cases g with
        | literal => cases same
        | expression y =>
          cases same
          exact ⟨_, mem, there⟩
      | expression => cases found
    · cases f with
      | literal => cases found
      | expression y =>
        cases found
        exact ⟨_, mem, List.mem_singleton_self _⟩

/-! ## What is taken for a name -/

/-- A word after a point. -/
def pointed (w : Text) : Text := ('.' : Byte) :: w

theorem join_points (w : Text) (ws : List Text) : Text.join "." (w :: ws) = w ++ ws.flatMap pointed := by
  induction ws generalizing w with
  | nil => rw [Text.join_singleton, List.flatMap_nil, List.append_nil]
  | cons v ws ih =>
    rw [Text.join_cons_cons, ih, List.flatMap_cons]
    rfl

/-- What is taken starts with a word if the text does. -/
theorem word_of_start {c : Byte} {r u : Text} {ws : List Text} (start : isNameStart c = true)
    (parts : ∀ d ∈ u, isNamePart d = true) (same : c :: r = u ++ ws.flatMap pointed) : IsWord u := by
  cases u with
  | nil =>
    cases ws with
    | nil => cases same
    | cons w ws =>
      obtain rfl : c = '.' := (List.cons.inj same).1
      exact absurd start (by decide)
  | cons d u =>
    cases same
    exact ⟨c, u, rfl, start, fun d hd => parts d (List.mem_cons_of_mem _ hd)⟩

/-- Parts of a name, then words with a point before each of them, are taken. -/
theorem take_dottedLength (s : Text) : ∃ (u : Text) (ws : List Text), (∀ d ∈ u, isNamePart d = true) ∧
    (∀ w ∈ ws, IsWord w) ∧ s.take (dottedLength s) = u ++ ws.flatMap pointed := by
  induction s with
  | nil => exact ⟨[], [], by simp, by simp, rfl⟩
  | cons c s ih =>
    obtain ⟨u, ws, parts, words, taken⟩ := ih
    rw [dottedLength]
    by_cases part : isNamePart c = true
    · refine ⟨c :: u, ws, List.forall_mem_cons.2 ⟨part, parts⟩, words, ?_⟩
      rw [if_pos (by simp [part]), List.take_succ_cons, taken, List.cons_append]
    · by_cases point : (c == '.' && s.head?.any isNameStart) = true
      · obtain ⟨same, next⟩ := Bool.and_eq_true_iff.1 point
        obtain rfl := eq_of_beq same
        refine ⟨[], u :: ws, by simp, List.forall_mem_cons.2 ⟨?_, words⟩, ?_⟩
        · match s, next with
          | d :: r, next =>
            have one : (d :: r).take (dottedLength (d :: r)) = d :: r.take (dottedLength r) := by
              rw [dottedLength, if_pos (by simp [(of_isNameStart next).2]), List.take_succ_cons]
            exact word_of_start next parts (one.symm.trans taken)
        · rw [if_pos (by rw [point, Bool.or_true]), List.take_succ_cons, taken]
          rfl
      · refine ⟨[], [], by simp, by simp, ?_⟩
        rw [if_neg (by simp [part, point])]
        rfl

theorem mem_addByte {c : Byte} {fs : List Fragment} (h : .expression x ∈ addByte c fs) : .expression x ∈ fs := by
  unfold addByte at h
  split at h <;> simpa using h

/-- **The short form takes words with points between them.** -/
theorem dotted_of_mem_cutShort {skip : Nat} (h : .expression x ∈ cutShort skip s) :
    ∃ w ws, IsWord w ∧ (∀ v ∈ ws, IsWord v) ∧ x.source = Text.join "." (w :: ws) := by
  fun_induction cutShort skip s with
  | case1 => cases h
  | case2 _ _ _ ih => exact ih h
  | case3 => cases mem_addByte h
  | case4 _ _ _ _ _ ih => exact ih (mem_addByte h)
  | case5 _ _ c r _ start n ih =>
    obtain same | later := List.mem_cons.1 h
    · cases same
      obtain ⟨u, ws, parts, words, taken⟩ := take_dottedLength (c :: r)
      have one : (c :: r).take (dottedLength (c :: r)) = c :: r.take (dottedLength r) := by
        rw [dottedLength, if_pos (by simp [(of_isNameStart start).2]), List.take_succ_cons]
      exact ⟨u, ws, word_of_start start parts (one.symm.trans taken), words, taken.trans (join_points u ws).symm⟩
    · exact ih later
  | case6 _ _ _ _ _ _ ih | case7 _ _ _ ih => exact ih (mem_addByte h)

theorem dotted_of_mem_shortForms (h : x ∈ shortForms text) :
    ∃ w ws, IsWord w ∧ (∀ v ∈ ws, IsWord v) ∧ x.source = Text.join "." (w :: ws) := by
  obtain ⟨f, -, found⟩ := List.mem_flatMap.1 h
  cases f with
  | expression => cases found
  | literal t =>
    obtain ⟨g, there, same⟩ := List.mem_filterMap.1 found
    cases g with
    | literal => cases same
    | expression y =>
      cases same
      exact dotted_of_mem_cutShort there

theorem words_of_source {w : Text} {ws : List Text} (word : IsWord w) (others : ∀ v ∈ ws, IsWord v)
    (source : x.source = Text.join "." (w :: ws)) : words x = w :: ws := by
  rw [words, source]
  exact Text.pieces_join (List.forall_mem_cons.2 ⟨word.point_notMem, fun v hv => (others v hv).point_notMem⟩)
    (List.cons_ne_nil w ws)

/-- A short form has a tree if and only if its words are a value and its members. -/
theorem tree_of_shortForm (h : x ∈ shortForms text) : (∃ e, x.tree = .ok e) ↔ NamesMembers (words x) := by
  obtain ⟨w, ws, word, others, source⟩ := dotted_of_mem_shortForms h
  rw [words_of_source word others source]
  simp only [Expression.tree, source, Expr.parse_dotted_iff word others]
  exact ⟨fun ⟨_, names, _⟩ => names, fun names => ⟨_, names, rfl⟩⟩

/-- It can then fail only because it can't be evaluated. -/
theorem stops_of_shortForm (h : x ∈ shortForms text) (names : NamesMembers (words x)) {k : Nat} {why : Stop}
    (stops : x.Stops k why) : why.OfEvaluation := by
  obtain ⟨w, ws, word, others, source⟩ := dotted_of_mem_shortForms h
  rw [words_of_source word others source] at names
  obtain ⟨s, failed⟩ := stops
  have tree : x.tree = .ok (.ofWords w ws) := by
    rw [Expression.tree, source]
    exact (Expr.parse_dotted_iff word others).2 ⟨names, rfl⟩
  rw [Expression.eval, Expression.evalWith, tree] at failed
  exact Expr.failing_ofWords failed

end Interpolation

open Interpolation

/-- The expressions of the event are of the short form, and no keyword stands in them but a constant at their start. -/
def Event.HasShortForms (e : Event) : Prop :=
  ∀ x ∈ e.expressions, (∃ text, x ∈ shortForms text) ∧ NamesMembers (words x)

/-- An event with such expressions makes the expansion fail with an error of an evaluation, at its place. -/
theorem Stream.fails_of_shortForms {target : Compile.Target} {events es : List Event} {t : Template} {k : Nat} {s r : Store}
    {u : Stream} {f : Failure} (compiled : Compile.template target events = .ok t) (run : Run k t.expansion s es u r)
    (failure : u.failure? k t.filename r = some f) (short : f.event.HasShortForms) :
    ∃ e, (step k u r).why? = some (.fault (.evaluation e (.ofPosition f.file f.event.position))) := by
  obtain ⟨_, -, rfl⟩ := Compile.template_ok compiled
  have expands := run.expands (Template.expands_expansion rfl)
  obtain ⟨⟨x, hx, stops⟩, why, fails, reports⟩ := step_of_failure failure
  obtain ⟨⟨text, form⟩, names⟩ := short x hx
  obtain ⟨e, cause⟩ := stops_of_shortForm form names stops
  obtain ⟨q, failed⟩ := stops
  have raises := Failure.raises_of_reports (Expression.eval_stops failed) ((step_expands expands).2 why fails) reports
  cases raises with
  | lacking other | unreadable other => cases cause.symm.trans other
  | failing same => exact ⟨_, fails⟩

namespace Interpolation

/-- **A short form is an expression unless a keyword stands in it**, apart from a constant at its start. Where the
expressions of an event are such short forms, the expansion of a template can fail at the event only because one of them
can't be evaluated. -/
theorem shortForm_parses_iff {text : Text} {x : Expression} (short : x ∈ shortForms text) :
    .expression x ∈ interpolate text ∧ ((∃ e, x.tree = .ok e) ↔ NamesMembers (words x)) ∧
      ∀ {target : Compile.Target} {events es : List Event} {t : Template} {k : Nat} {s r : Store} {u : Stream} {f : Failure},
        Compile.template target events = .ok t → Stream.Run k t.expansion s es u r → u.failure? k t.filename r = some f →
        f.event.HasShortForms →
          ∃ e, (Stream.step k u r).why? = some (.fault (.evaluation e (.ofPosition f.file f.event.position))) :=
  ⟨mem_interpolate_iff.2 (.inl short), tree_of_shortForm short, Stream.fails_of_shortForms⟩

/-- A text with a name and its member, and with a doubled dollar. -/
def memberTemplate : Template :=
  ⟨0, "t.xml", [.startTag ⟨1, 0⟩ (.plain "p") [], .text ⟨1, 0⟩ "by ", .expression ⟨1, 0⟩ ⟨"n.name"⟩, .text ⟨1, 0⟩ ", $5",
    .endTag ⟨1, 0⟩ (.plain "p")], [.evaluate], [], [.tidy]⟩

/-- A number has no members, so that the expansion fails at the expression. -/
theorem shortForm_parses_iff_member :
    ⟨"n.name"⟩ ∈ shortForms "by $n.name, $$5" ∧ NamesMembers (words ⟨"n.name"⟩) ∧ (∃ e, (Expression.mk "n.name").tree = .ok e) ∧
      Compile.template ⟨0, "t.xml", .empty⟩ [.startTag ⟨1, 0⟩ (.plain "p") [], .text ⟨1, 0⟩ "by $n.name, $$5",
        .endTag ⟨1, 0⟩ (.plain "p")] = .ok memberTemplate ∧
      ∃ es u r f e, Stream.Run 60 memberTemplate.expansion (Template.firstStore.against [("n", .int 1)]) es u r ∧
        u.failure? 60 "t.xml" r = some f ∧ f.event.expressions = [⟨"n.name"⟩] ∧
          (Stream.step 60 u r).why? = some (.fault (.evaluation e (.ofPosition f.file f.event.position))) := by
  have short : ⟨"n.name"⟩ ∈ shortForms "by $n.name, $$5" := by decide +kernel
  have names : NamesMembers (words ⟨"n.name"⟩) := by decide +kernel
  have compiled : Compile.template ⟨0, "t.xml", .empty⟩ [.startTag ⟨1, 0⟩ (.plain "p") [], .text ⟨1, 0⟩ "by $n.name, $$5",
    .endTag ⟨1, 0⟩ (.plain "p")] = .ok memberTemplate := rfl
  obtain ⟨-, parses, fails⟩ := shortForm_parses_iff short
  have reached : ((Stream.after 60 2 memberTemplate.expansion (Template.firstStore.against [("n", .int 1)])).bind fun p =>
      (p.1.failure? 60 "t.xml" p.2).map (·.event.expressions)) = some [⟨"n.name"⟩] := by decide +kernel
  obtain ⟨⟨u, r⟩, after, failed⟩ := Option.bind_eq_some_iff.1 reached
  obtain ⟨f, failure, expressions⟩ := Option.map_eq_some_iff.1 failed
  obtain ⟨es, run⟩ := Stream.run_of_after after
  obtain ⟨e, why⟩ := fails compiled run failure (by
    rw [Event.HasShortForms, expressions]
    exact List.forall_mem_singleton.2 ⟨⟨_, short⟩, names⟩)
  exact ⟨short, names, parses.2 names, compiled, es, u, r, f, e, run, failure, expressions, why⟩

/-- The syntax error that there is no text for, and its place. -/
def syntaxError? : Except Stop Text → Option (SyntaxError × SourcePlace)
  | .error (.fault (.source ⟨.expression e, place⟩)) => some (e, place)
  | _ => none

theorem of_syntaxError {o : Except Stop Text} {e : SyntaxError} {place : SourcePlace}
    (h : syntaxError? o = some (e, place)) : o = .error (.fault (.source ⟨.expression e, place⟩)) := by
  unfold syntaxError? at h
  split at h
  · cases h
    rfl
  · cases h

/-- **A keyword after a dollar is taken for a name**, and makes the rendering of its text fail with a syntax error. -/
theorem shortForm_keyword : ⟨"if"⟩ ∈ shortForms "$if" ∧
    (Expression.mk "if").tree = .error ⟨.unexpected (.keyword .if), 0, "if"⟩ ∧
    ∃ t, Compile.template ⟨0, "t.xml", .empty⟩ [.startTag ⟨1, 0⟩ (.plain "p") [], .text ⟨1, 0⟩ "$if",
        .endTag ⟨1, 0⟩ (.plain "p")] = .ok t ∧
      (t.render 60 Template.firstStore).1 =
        .error (.fault (.source ⟨.expression ⟨.unexpected (.keyword .if), 0, "if"⟩, ⟨"t.xml", 1, 0⟩⟩)) :=
  ⟨by decide +kernel, rfl, _, rfl, of_syntaxError (by decide +kernel)⟩

end Interpolation

end Stencil
