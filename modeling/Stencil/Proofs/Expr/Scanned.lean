import Stencil.Proofs.Expr.Lexeme

/-!
# What the scanner finds

A source that is scanned is made of the lexemes found (`Token.spells_of_scan`): each of them covers bytes that it
can be written as, and only white space stands between them. This is the other direction of `Token.scan_of_cuts`.
-/

namespace Stencil

namespace Token

/-- The bytes of numbers. -/
def isNumberPart (c : Byte) : Bool := c.isDigit || c == '.' || c == 'e' || c == 'E' || c == '+' || c == '-'

/-- The length of the fraction at the start of a text. -/
def fractionSpan : Text → Nat
  | c :: d :: r => if c == '.' && d.isDigit then 2 + (r.takeWhile Byte.isDigit).length else 0
  | _ => 0

/-- The length of the sign at the start of a text. -/
def signSpan : Text → Nat
  | c :: _ => if c == '+' || c == '-' then 1 else 0
  | [] => 0

/-- The length of the exponent at the start of a text. -/
def exponentSpan : Text → Nat
  | c :: r =>
    if c == 'e' || c == 'E' then
      let digits := ((r.drop (signSpan r)).takeWhile Byte.isDigit).length
      if digits == 0 then 0 else 1 + signSpan r + digits
    else 0
  | [] => 0

theorem numberSpan_eq (s : Text) : numberSpan s =
    let whole := (s.takeWhile Byte.isDigit).length
    let fraction := fractionSpan (s.drop whole)
    let exponent := exponentSpan ((s.drop whole).drop fraction)
    (whole + fraction + exponent, fraction + exponent != 0) := by
  rfl

theorem take_takeWhile (p : Byte → Bool) (s : Text) : s.take (s.takeWhile p).length = s.takeWhile p :=
  (List.prefix_iff_eq_take.1 (List.takeWhile_prefix p)).symm

theorem digits_part (s : Text) : ∀ c ∈ s.takeWhile Byte.isDigit, isNumberPart c = true := by
  intro c hc
  simp [isNumberPart, List.mem_takeWhile_imp hc]

theorem fractionSpan_part (s : Text) : ∀ c ∈ s.take (fractionSpan s), isNumberPart c = true := by
  unfold fractionSpan
  split
  next c d r =>
    split
    next h =>
      obtain ⟨point, digit⟩ := Bool.and_eq_true_iff.1 h
      rw [Nat.add_comm, List.take_succ_cons, List.take_succ_cons, take_takeWhile]
      refine List.forall_mem_cons.2 ⟨by simp [isNumberPart, point], List.forall_mem_cons.2 ⟨?_, digits_part r⟩⟩
      simp [isNumberPart, digit]
    next => simp
  next => simp

theorem signSpan_part (s : Text) : ∀ c ∈ s.take (signSpan s), isNumberPart c = true := by
  unfold signSpan
  split
  next c r =>
    split
    next sign =>
      rw [Bool.or_eq_true] at sign
      obtain sign | sign := sign <;> simp [isNumberPart, beq_iff_eq.1 sign]
    next => simp
  next => simp

theorem exponentSpan_part (s : Text) : ∀ c ∈ s.take (exponentSpan s), isNumberPart c = true := by
  unfold exponentSpan
  split
  next c r =>
    split
    next mark =>
      dsimp only
      split
      next => simp
      next =>
        have part : isNumberPart c = true := by
          rw [Bool.or_eq_true] at mark
          obtain mark | mark := mark <;> simp [isNumberPart, beq_iff_eq.1 mark]
        rw [Nat.add_assoc, Nat.add_comm, List.take_succ_cons, List.take_add, take_takeWhile]
        refine List.forall_mem_cons.2 ⟨part, fun d hd => ?_⟩
        obtain sign | digit := List.mem_append.1 hd
        · exact signSpan_part r d sign
        · exact digits_part _ d digit
    next => simp
  next => simp

/-- A number is made of the bytes of numbers, and of digits alone if it is an integer. -/
theorem numberSpan_part (s : Text) : (∀ c ∈ s.take (numberSpan s).1, isNumberPart c = true) ∧
    ((numberSpan s).2 = false → ∀ c ∈ s.take (numberSpan s).1, c.isDigit = true) := by
  rw [numberSpan_eq]
  dsimp only
  constructor
  · intro c hc
    rw [List.take_add, List.take_add, take_takeWhile, ← List.drop_drop, List.mem_append, List.mem_append] at hc
    obtain (whole | fraction) | exponent := hc
    · exact digits_part s c whole
    · exact fractionSpan_part _ c fraction
    · exact exponentSpan_part _ c exponent
  · intro integer c hc
    rw [bne_eq_false_iff_eq] at integer
    rw [Nat.add_assoc, integer, Nat.add_zero, take_takeWhile] at hc
    exact List.mem_takeWhile_imp hc

theorem takeString_take {quote : Byte} {s t : Text} {n : Nat} (h : takeString quote s = some (t, n)) :
    n ≤ s.length ∧ takeString quote (s.take n) = some (t, n) := by
  fun_induction takeString quote s generalizing t n with
  | case1 => cases h
  | case2 c s closes =>
    cases h
    exact ⟨by simp, by simp [takeString, closes]⟩
  | case3 c opened escapes => cases h
  | case4 c opened escapes d r ih =>
    obtain ⟨⟨t', n'⟩, read, same⟩ := Option.map_eq_some_iff.1 h
    cases same
    obtain ⟨le, again⟩ := ih read
    exact ⟨by simpa using le, by simp [takeString, opened, escapes, again]⟩
  | case5 c s opened plain ih =>
    obtain ⟨⟨t', n'⟩, read, same⟩ := Option.map_eq_some_iff.1 h
    cases same
    obtain ⟨le, again⟩ := ih read
    refine ⟨by simpa using le, ?_⟩
    rw [List.take_succ_cons, takeString.eq_def]
    simp [opened, plain, again]

end Token

open Token

/-- The texts that a lexeme of a source may be written as. -/
inductive Lexeme.IsSpelled : Lexeme → Text → Prop
  | written {x : Lexeme} {raw : Text} (h : x.IsWritten raw) : IsSpelled x raw
  | decimal {digits : Text} (parts : ∀ c ∈ digits, isNumberPart c = true) : IsSpelled (.decimal digits) digits

theorem Lexeme.IsSpelled.ne_endOfInput {x : Lexeme} {raw : Text} (h : x.IsSpelled raw) : x ≠ .endOfInput := by
  rintro rfl
  cases h with
  | written h => cases h

/-- The text is made of the lexemes, with white space between them. -/
inductive Spells : Text → List Lexeme → Prop
  | nil {blank : Text} (white : ∀ c ∈ blank, c.isWhite = true) : Spells blank []
  | cons {blank raw rest : Text} {x : Lexeme} {xs : List Lexeme} (white : ∀ c ∈ blank, c.isWhite = true)
      (spelled : x.IsSpelled raw) (more : Spells rest xs) : Spells (blank ++ (raw ++ rest)) (x :: xs)

theorem Spells.endOfInput_notMem {s : Text} {xs : List Lexeme} (h : Spells s xs) : .endOfInput ∉ xs := by
  induction h with
  | nil => exact List.not_mem_nil
  | cons white spelled more ih => exact by simp [spelled.ne_endOfInput.symm, ih]

namespace Token

theorem spelled_word {c : Byte} {r : Text} (start : isNameStart c = true) (offset : Nat) :
    Lexeme.IsSpelled (Token.lexeme ⟨match Keyword.ofSpelling? ((c :: r).takeWhile isNamePart) with
      | some k => .keyword k
      | none => .name, (c :: r).takeWhile isNamePart, offset, ((c :: r).takeWhile isNamePart).length⟩)
      ((c :: r).takeWhile isNamePart) := by
  have word : (c :: r).takeWhile isNamePart = c :: r.takeWhile isNamePart := by
    rw [List.takeWhile_cons, (of_isNameStart start).2]
    rfl
  rw [word]
  cases known : Keyword.ofSpelling? (c :: r.takeWhile isNamePart) with
  | none => exact .written (.word start (fun d hd => List.mem_takeWhile_imp hd) known)
  | some k =>
    have same : k.spelling = c :: r.takeWhile isNamePart := by simpa using List.find?_some known
    rw [← same]
    exact .written (.keyword k)

theorem numberSpan_pos {c : Byte} (digit : c.isDigit = true) (r : Text) : 0 < (numberSpan (c :: r)).1 := by
  rw [numberSpan_eq, List.takeWhile_cons, digit]
  simp only [if_true, List.length_cons]
  omega

theorem spelled_number {c : Byte} (digit : c.isDigit = true) (r : Text) (offset : Nat) :
    Lexeme.IsSpelled (Token.lexeme ⟨if (numberSpan (c :: r)).2 = true then .decimal else .integer,
      (c :: r).take (numberSpan (c :: r)).1, offset, (numberSpan (c :: r)).1⟩) ((c :: r).take (numberSpan (c :: r)).1) := by
  obtain ⟨parts, digits⟩ := numberSpan_part (c :: r)
  obtain ⟨n, pos⟩ : ∃ n, (numberSpan (c :: r)).1 = n + 1 := ⟨_, (Nat.succ_pred_eq_of_pos (numberSpan_pos digit r)).symm⟩
  cases kind : (numberSpan (c :: r)).2 with
  | true => exact .decimal parts
  | false =>
    rw [pos, List.take_succ_cons] at digits ⊢
    exact .written (.integer (digits kind))

/-- The token at the start of a text, where there is one, covers bytes that it may be written as. -/
theorem spelled_of_first {source s : Text} {offset : Nat} {t : Token} (h : first source offset s = .ok t)
    (some : s ≠ []) : t.lexeme.IsSpelled (s.take t.length) := by
  cases s with
  | nil => exact absurd rfl some
  | cons c r =>
    unfold first at h
    dsimp only at h
    split at h
    next start =>
      cases h
      rw [take_takeWhile]
      exact spelled_word start offset
    next =>
      split at h
      next digit =>
        cases h
        exact spelled_number digit r offset
      next =>
        split at h
        next quotes =>
          split at h
          next t n read =>
            cases h
            obtain ⟨le, again⟩ := takeString_take read
            have length : (r.take n).length = n := List.length_take_of_le le
            rw [List.take_succ_cons]
            exact .written (.string (by simpa using quotes) (by rw [length]; exact again))
          next => cases h
        next =>
          split at h
          next k found =>
            cases h
            have starts : k.spelling <+: c :: r := List.isPrefixOf_iff_prefix.1 (by simpa using List.find?_some found)
            rw [← List.prefix_iff_eq_take.1 starts]
            exact .written (.symbol k)
          next => cases h

theorem spells_of_scanFrom {source s : Text} {steps offset : Nat} {ts : List Token}
    (h : scanFrom source steps offset s = .ok ts) : ∃ xs, ts.map lexeme = xs ++ [.endOfInput] ∧ Spells s xs := by
  induction steps generalizing s offset ts with
  | zero => cases h
  | succ steps ih =>
    unfold scanFrom at h
    dsimp only at h
    have blank : ∀ c ∈ s.takeWhile Byte.isWhite, c.isWhite = true := fun c hc => List.mem_takeWhile_imp hc
    have split : s.takeWhile Byte.isWhite ++ s.drop (s.takeWhile Byte.isWhite).length = s := by
      have parts := List.take_append_drop (s.takeWhile Byte.isWhite).length s
      rwa [take_takeWhile] at parts
    generalize s.takeWhile Byte.isWhite = white at blank split h
    generalize s.drop white.length = rest at split h
    subst split
    split at h
    next => cases h
    next t read =>
      cases rest with
      | nil =>
        cases read
        cases h
        exact ⟨[], rfl, by simpa using .nil blank⟩
      | cons c r =>
        have spelled := spelled_of_first read (List.cons_ne_nil c r)
        split at h
        next ended => exact absurd (by rw [lexeme, ended]) spelled.ne_endOfInput
        next =>
          split at h
          next => cases h
          next ts' more =>
            cases h
            obtain ⟨xs, same, spells⟩ := ih more
            refine ⟨t.lexeme :: xs, by simp [same], ?_⟩
            rw [← List.take_append_drop t.length (c :: r)]
            exact .cons blank spelled spells

/-- **The scanner finds lexemes that the source is made of.** -/
theorem spells_of_scan {source : Text} {ts : List Token} (h : scan source = .ok ts) :
    ∃ xs, ts.map lexeme = xs ++ [.endOfInput] ∧ Spells source xs := spells_of_scanFrom h

end Token

end Stencil
