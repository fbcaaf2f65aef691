import Stencil.Proofs.Template.Readings
import Stencil.Proofs.Expr.Lexeme
import Stencil.Proofs.Text.Occurrence
import Stencil.Proofs.Text.Pieces
import Stencil.Proofs.Text.Trimmed

/-!
# The targets of a loop

The value of a loop is read at the first ` in ` in it: its targets stand before, separated by commas, and what it runs
through behind. Names that are not `in` are found again, however they are spaced (`Directive.loopTargets_written`), and
no target is empty (`Directive.loop_well_formed`). But a value that starts with ` in ` is read to a loop without targets
(`Directive.loop_without_targets`).
-/

namespace Stencil

/-! ## Written targets -/

/-- A name as expressions know it, keywords included. -/
structure IsIdentifier (name : Text) : Prop where
  start : name.head?.any Token.isNameStart = true
  parts : ∀ c ∈ name, Token.isNamePart c = true

/-- A target as it is written, between commas. -/
structure WrittenTarget where
  before : Text
  name : Text
  after : Text

namespace WrittenTarget

def text (t : WrittenTarget) : Text := t.before ++ t.name ++ t.after

/-- A name that does not look like the end of the targets, with white space around it. -/
structure Valid (t : WrittenTarget) : Prop where
  blankBefore : ∀ c ∈ t.before, c.isWhite = true
  identifier : IsIdentifier t.name
  other : t.name ≠ "in"
  blankAfter : ∀ c ∈ t.after, c.isWhite = true

end WrittenTarget

variable {t : WrittenTarget} {ts : List WrittenTarget} {name s u items value : Text} {c : Byte}

theorem IsIdentifier.ne_nil (h : IsIdentifier name) : name ≠ [] := by
  rintro rfl
  cases h.start

/-- What a byte of a name is not. -/
theorem of_isNamePart (h : Token.isNamePart c = true) : c.isWhite = false ∧ c ≠ ' ' ∧ c ≠ ',' := by
  revert h
  exact Byte.of_codes (p := fun c => Token.isNamePart c = true → c.isWhite = false ∧ c ≠ ' ' ∧ c ≠ ',') (by decide +kernel) c

/-- What a byte between names is not. -/
theorem of_isWhite (h : c.isWhite = true) : Token.isNamePart c = false ∧ c ≠ 'i' ∧ c ≠ ',' := by
  revert h
  exact Byte.of_codes (p := fun c => c.isWhite = true → Token.isNamePart c = false ∧ c ≠ 'i' ∧ c ≠ ',') (by decide +kernel) c

namespace Directive

/-! ## Where the targets end -/

/-- What comes after the blank that starts a separator. -/
def wordIn : Text := [('i' : Byte), ('n' : Byte), (' ' : Byte)]

/-- White space is skipped if the word `in` does not come after it. -/
theorem indexOf?_blank (blank : ∀ c ∈ u, c.isWhite = true) (other : ¬ wordIn <+: s) :
    Text.indexOf? loopSeparator (u ++ s) = (Text.indexOf? loopSeparator s).map (· + u.length) := by
  apply Text.indexOf?_skip
  intro before behind same some starts
  obtain ⟨c, behind, rfl⟩ := List.exists_cons_of_ne_nil some
  obtain ⟨-, word⟩ := List.cons_prefix_cons.1 starts
  cases behind with
  | nil => exact other word
  | cons d behind =>
    obtain ⟨first, -⟩ := List.cons_prefix_cons.1 word
    exact (of_isWhite (blank d (by simp [same]))).2.1 first.symm

/-- A name that is not `in` does not start with that word, if it ends where it seems to. -/
theorem not_wordIn (h : IsIdentifier name) (other : name ≠ "in") (ends : ∀ c ∈ s.head?, Token.isNamePart c = false) :
    ¬ wordIn <+: name ++ s := by
  intro starts
  have blank : Token.isNamePart ' ' = false := rfl
  obtain ⟨parts, some⟩ : (∀ c ∈ name, Token.isNamePart c = true) ∧ name ≠ [] := ⟨h.parts, h.ne_nil⟩
  match name with
  | [] => exact some rfl
  | [a] =>
    obtain ⟨-, s, rfl⟩ := List.cons_prefix_cons.1 starts
    have second : Token.isNamePart 'n' = false := ends _ rfl
    cases second
  | [a, b] =>
    obtain ⟨rfl, rest⟩ := List.cons_prefix_cons.1 starts
    obtain ⟨rfl, -⟩ := List.cons_prefix_cons.1 rest
    exact other rfl
  | a :: b :: c :: r =>
    obtain ⟨-, rest⟩ := List.cons_prefix_cons.1 starts
    obtain ⟨-, rest⟩ := List.cons_prefix_cons.1 rest
    obtain ⟨third, -⟩ := List.cons_prefix_cons.1 rest
    have part := parts c (by simp)
    rw [← third, blank] at part
    cases part

/-- A target is skipped if it ends where it seems to. -/
theorem indexOf?_target (h : t.Valid) (ends : ∀ c ∈ s.head?, Token.isNamePart c = false ∧ c ≠ 'i') :
    Text.indexOf? loopSeparator (t.text ++ s) = (Text.indexOf? loopSeparator s).map (· + t.text.length) := by
  have notIn : ¬ wordIn <+: s := by
    rintro ⟨rest, rfl⟩
    exact (ends 'i' rfl).2 rfl
  have noBlank : (' ' : Byte) ∉ t.name := fun there => (of_isNamePart (h.identifier.parts _ there)).2.1 rfl
  have behind : ∀ c ∈ (t.after ++ s).head?, Token.isNamePart c = false := by
    intro c first
    rw [List.head?_append] at first
    cases blank : t.after.head? with
    | none =>
      rw [blank] at first
      exact (ends c first).1
    | some d =>
      rw [blank] at first
      obtain rfl : d = c := Option.some.inj first
      exact (of_isWhite (h.blankAfter d (List.mem_of_mem_head? blank))).1
  have named : Text.indexOf? loopSeparator (t.name ++ (t.after ++ s)) =
      (Text.indexOf? loopSeparator (t.after ++ s)).map (· + t.name.length) := Text.indexOf?_skip_of_not_mem noBlank
  have split : t.text ++ s = t.before ++ (t.name ++ (t.after ++ s)) := by simp [WrittenTarget.text]
  rw [split, indexOf?_blank h.blankBefore (not_wordIn h.identifier h.other behind), named, indexOf?_blank h.blankAfter notIn,
    Option.map_map, Option.map_map]
  congr 1
  funext n
  simp only [Function.comp_apply, WrittenTarget.text, List.length_append]
  omega

/-- The targets as they are written. -/
def written (ts : List WrittenTarget) : Text := Text.join "," (ts.map WrittenTarget.text)

/-- **Targets that are not `in` end at the separator behind them.** -/
theorem indexOf?_written (some : ts ≠ []) (valid : ∀ t ∈ ts, t.Valid) (items : Text) :
    Text.indexOf? loopSeparator (written ts ++ (loopSeparator ++ items)) = .some (written ts).length := by
  have here : Text.indexOf? loopSeparator (loopSeparator ++ items) = .some 0 := Text.indexOf?_eq_zero_iff.2 ⟨items, rfl⟩
  have blank : ∀ c ∈ (loopSeparator ++ items).head?, Token.isNamePart c = false ∧ c ≠ 'i' := by
    rintro _ ⟨⟩
    decide
  induction ts with
  | nil => exact absurd rfl some
  | cons t ts ih =>
    obtain ⟨first, others⟩ := List.forall_mem_cons.1 valid
    cases ts with
    | nil =>
      have single : written [t] = t.text := Text.join_singleton _ _
      rw [single, indexOf?_target first blank, here, Option.map_some, Nat.zero_add]
    | cons u us =>
      have cut : written (t :: u :: us) = t.text ++ ([(',' : Byte)] ++ written (u :: us)) := Text.join_cons_cons _ _ _ _
      have comma : ∀ rest : Text, ∀ c ∈ ([(',' : Byte)] ++ rest).head?, Token.isNamePart c = false ∧ c ≠ 'i' := by
        rintro rest _ ⟨⟩
        decide
      have skip (rest : Text) : Text.indexOf? loopSeparator ([(',' : Byte)] ++ rest) =
          (Text.indexOf? loopSeparator rest).map (· + 1) := Text.indexOf?_skip_of_not_mem (by decide)
      rw [cut, List.append_assoc, indexOf?_target first (by rw [List.append_assoc]; exact comma _), List.append_assoc, skip,
        ih (by simp) others, Option.map_some, Option.map_some]
      simp only [List.length_append, List.length_singleton]
      congr 1
      omega

/-! ## What is read -/

theorem trimWhite_text (h : t.Valid) : Text.trimWhite t.text = t.name := by
  apply Text.trim_around h.blankBefore _ _ h.blankAfter
  · exact fun c first => (of_isNamePart (h.identifier.parts c (List.mem_of_mem_head? first))).1
  · exact fun c last => (of_isNamePart (h.identifier.parts c (List.mem_of_mem_getLast? last))).1

/-- **Names that are written with commas between them are the targets.** -/
theorem loopTargets_written (valid : ∀ t ∈ ts, t.Valid) (value : Text) :
    loopTargets value (written ts) = .ok (ts.map (·.name)) := by
  have noComma : ∀ p ∈ ts.map WrittenTarget.text, (',' : Byte) ∉ p := by
    simp only [List.forall_mem_map, WrittenTarget.text, List.mem_append, not_or]
    intro t ht
    have h := valid t ht
    exact ⟨⟨fun there => (of_isWhite (h.blankBefore _ there)).2.2 rfl,
      fun there => (of_isNamePart (h.identifier.parts _ there)).2.2 rfl⟩,
      fun there => (of_isWhite (h.blankAfter _ there)).2.2 rfl⟩
  have filled : [] ∉ ts.map WrittenTarget.text := by
    intro empty
    obtain ⟨t, ht, nothing⟩ := List.mem_map.1 empty
    have name := trimWhite_text (valid t ht)
    rw [nothing] at name
    exact (valid t ht).identifier.ne_nil name.symm
  have names : (Text.split ',' false (written ts)).map Text.trimWhite = ts.map (·.name) := by
    have cut : Text.split ',' false (written ts) = ts.map WrittenTarget.text := Text.split_join noComma filled
    rw [cut, List.map_map]
    exact List.map_congr_left fun t ht => trimWhite_text (valid t ht)
  have all : (ts.map (·.name)).any (·.isEmpty) = false := by
    simp only [List.any_map, List.any_eq_false, Function.comp_apply, List.isEmpty_iff]
    exact fun t ht => (valid t ht).identifier.ne_nil
  rw [loopTargets, names, all]
  rfl

theorem loopTargets_ok {targets : List Text} (h : loopTargets value s = .ok targets) :
    (targets = [] ↔ s = []) ∧ ∀ target ∈ targets, target ≠ [] ∧ Text.trimWhite target = target := by
  unfold loopTargets at h
  dsimp only at h
  split at h
  · cases h
  · rename_i filled
    cases h
    refine ⟨List.map_eq_nil_iff.trans Text.split_eq_nil_iff, fun target ht => ⟨?_, ?_⟩⟩
    · rintro rfl
      exact filled (List.any_eq_true.2 ⟨[], ht, rfl⟩)
    · obtain ⟨piece, -, rfl⟩ := List.mem_map.1 ht
      exact Text.trimWhite_trimWhite piece

theorem optionalExpression_of_visible (visible : Text.trimWhite items ≠ []) :
    optionalExpression items = some ⟨Text.trimWhite items⟩ := by
  rw [optionalExpression]
  exact if_neg (by simpa using visible)

theorem optionalExpression_some {x : Expression} (h : optionalExpression s = some x) :
    x.source ≠ [] ∧ Text.trimWhite x.source = x.source := by
  unfold optionalExpression at h
  dsimp only at h
  split at h
  · cases h
  · rename_i filled
    cases h
    exact ⟨by simpa using filled, Text.trimWhite_trimWhite s⟩

/-- What is read of targets, a separator and what the loop runs through. -/
theorem readNamed_targets {targets : List Text} {place : SourcePlace} {body : BodyId}
    (index : Text.indexOf? loopSeparator (s ++ (loopSeparator ++ items)) = some s.length)
    (read : loopTargets (s ++ (loopSeparator ++ items)) s = .ok targets) (visible : Text.trimWhite items ≠ []) :
    readNamed .loop (s ++ (loopSeparator ++ items)) place body = .ok (.plain (.loop targets ⟨Text.trimWhite items⟩)) := by
  have behind : (s ++ (loopSeparator ++ items)).drop (s.length + loopSeparator.length) = items := by
    rw [← List.drop_drop, List.drop_left, List.drop_left]
  have loop : readLoop (s ++ (loopSeparator ++ items)) = .ok (.loop targets ⟨Text.trimWhite items⟩) := by
    rw [readLoop, index]
    dsimp only
    rw [List.take_left, read, behind, requiredExpression, optionalExpression_of_visible visible]
    rfl
  rw [readNamed, loop]

/-- The targets and the expression of a loop that is accepted are not empty; there is a target unless the value starts with
the separator. -/
theorem readLoop_filled {d : Directive} (h : readLoop value = .ok d) :
    ∃ targets source, d = .loop targets ⟨source⟩ ∧ (targets = [] ↔ loopSeparator <+: value) ∧
      (∀ target ∈ targets, target ≠ [] ∧ Text.trimWhite target = target) ∧ source ≠ [] ∧ Text.trimWhite source = source := by
  obtain ⟨n, targets, items, index, split, required, rfl⟩ := Compile.readLoop_ok h
  obtain ⟨empty, filled⟩ := loopTargets_ok split
  obtain ⟨visible, trimmed⟩ := optionalExpression_some (Compile.optional_of_required required)
  refine ⟨targets, items.source, rfl, ?_, filled, visible, trimmed⟩
  have inside := Text.length_of_indexOf? index
  have long : 0 < loopSeparator.length := by decide
  rw [empty, ← Text.indexOf?_eq_zero_iff, index, Option.some.injEq, ← List.length_eq_zero_iff, List.length_take]
  omega

/-- Why the value of a loop can be refused. -/
theorem readLoop_error {cause : SourceCause} (h : readLoop value = .error cause) :
    cause ∈ [.loopShape value, .emptyLoopVariable value, .missingExpression "for"] := by
  unfold readLoop at h
  split at h
  · cases h
    simp
  · rename_i n _
    cases targets : loopTargets value (value.take n) with
    | error e =>
      rw [targets] at h
      cases h
      unfold loopTargets at targets
      dsimp only at targets
      split at targets <;> cases targets
      simp
    | ok ts =>
      cases required : requiredExpression .loop (value.drop (n + loopSeparator.length)) with
      | error e =>
        rw [targets, required] at h
        cases h
        unfold requiredExpression at required
        split at required <;> cases required
        simp [DirectiveName.spelling]
      | ok x =>
        rw [targets, required] at h
        cases h

/-- **What is read of the value of a loop.** It is refused for its shape, for a target or for want of an expression; or it is
read to a loop over an expression that is not empty, with targets that are not empty, and at least one of them unless the
value starts with a separator. Such a value is read to a loop without targets. Names other than `in`, with commas and any
white space between them, are read to these targets. -/
theorem loop_well_formed (place : SourcePlace) (body : BodyId) :
    (∀ value e, readNamed .loop value place body = .error e → e.place = place ∧
      e.cause ∈ [.loopShape value, .emptyLoopVariable value, .missingExpression "for"]) ∧
    (∀ value r, readNamed .loop value place body = .ok r → ∃ targets source, r = .plain (.loop targets ⟨source⟩) ∧
      (targets = [] ↔ loopSeparator <+: value) ∧ (∀ target ∈ targets, target ≠ [] ∧ Text.trimWhite target = target) ∧
      source ≠ [] ∧ Text.trimWhite source = source) ∧
    (∀ items, Text.trimWhite items ≠ [] → readNamed .loop (loopSeparator ++ items) place body =
      .ok (.plain (.loop [] ⟨Text.trimWhite items⟩))) ∧
    ∀ (ts : List WrittenTarget) (items : Text), ts ≠ [] → (∀ t ∈ ts, t.Valid) → Text.trimWhite items ≠ [] →
      readNamed .loop (written ts ++ (loopSeparator ++ items)) place body =
        .ok (.plain (.loop (ts.map (·.name)) ⟨Text.trimWhite items⟩)) := by
  refine ⟨fun value e h => ?_, fun value r h => ?_, fun items visible => ?_, fun ts items some valid visible => ?_⟩
  · cases read : readLoop value with
    | error cause =>
      rw [readNamed, read] at h
      cases h
      exact ⟨rfl, readLoop_error read⟩
    | ok d =>
      rw [readNamed, read] at h
      cases h
  · cases read : readLoop value with
    | error cause =>
      rw [readNamed, read] at h
      cases h
    | ok d =>
      rw [readNamed, read] at h
      cases h
      obtain ⟨targets, source, rfl, loop⟩ := readLoop_filled read
      exact ⟨targets, source, rfl, loop⟩
  · have here : Text.indexOf? loopSeparator ([] ++ (loopSeparator ++ items)) = some 0 :=
      Text.indexOf?_eq_zero_iff.2 ⟨items, rfl⟩
    exact readNamed_targets here rfl visible
  · exact readNamed_targets (indexOf?_written some valid items) (loopTargets_written valid _) visible

/-- A pair of targets, one of which only starts with the word that ends them. -/
theorem loop_well_formed_pair :
    let ts : List WrittenTarget := [⟨[], "in_", "\n "⟩, ⟨"  ", "x1", []⟩]
    (∀ t ∈ ts, t.Valid) ∧ written ts ++ (loopSeparator ++ " pairs ") = Text.ascii "in_\n ,  x1 in  pairs " ∧
      readNamed .loop (Text.ascii "in_\n ,  x1 in  pairs ") ⟨"t.xml", 1, 0⟩ ⟨0, 0⟩ =
        .ok (.plain (.loop ["in_", "x1"] ⟨"pairs"⟩)) := by
  intro ts
  have valid : ∀ t ∈ ts, t.Valid := by
    refine List.forall_mem_cons.2 ⟨?_, List.forall_mem_singleton.2 ?_⟩
    · exact ⟨List.all_eq_true.1 rfl, ⟨rfl, List.all_eq_true.1 rfl⟩, by decide, List.all_eq_true.1 rfl⟩
    · exact ⟨List.all_eq_true.1 rfl, ⟨rfl, List.all_eq_true.1 rfl⟩, by decide, List.all_eq_true.1 rfl⟩
  obtain ⟨-, -, -, read⟩ := loop_well_formed ⟨"t.xml", 1, 0⟩ ⟨0, 0⟩
  exact ⟨valid, rfl, read ts " pairs " (by decide) valid (by decide)⟩

/-- **A value without targets is accepted**, as nothing is not split into an empty target. -/
theorem loop_without_targets :
    readNamed .loop " in xs" ⟨"d.xml", 1, 0⟩ ⟨0, 0⟩ = .ok (.plain (.loop [] ⟨"xs"⟩)) := rfl

end Directive

end Stencil
