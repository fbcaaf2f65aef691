import Stencil.Proofs.Expr.Written
import Stencil.Template.Interpolation

/-!
# Interpolated expressions

Interpolation looks for the brace that closes an expression by counting braces outside of quotes, and knows nothing
else of expressions. It finds the right one behind every expression that can be parsed: it leaves the quotes of
every lexeme where the scanner does (`closingBrace_spelled`), and the braces of an expression are balanced
(`Derives.balanced`). In the text before it a doubled dollar stands for a dollar (`interpolate_braced`).
-/

namespace Stencil

namespace Interpolation

variable {depth depth' : Nat} {s raw : Text}

/-! ## The closing brace -/

/-- The byte is neither a quote nor a brace. -/
def isOrdinary (c : Byte) : Bool := !(c == '\'' || c == '\"' || c == '\x7b' || c == '\x7d')

theorem ordinary_of_isWhite {c : Byte} (h : c.isWhite = true) : isOrdinary c = true := by
  revert h
  exact Byte.of_codes (p := fun c => c.isWhite = true → isOrdinary c = true) (by decide +kernel) c

theorem ordinary_of_isNamePart {c : Byte} (h : Token.isNamePart c = true) : isOrdinary c = true := by
  revert h
  exact Byte.of_codes (p := fun c => Token.isNamePart c = true → isOrdinary c = true) (by decide +kernel) c

theorem ordinary_of_isNumberPart {c : Byte} (h : Token.isNumberPart c = true) : isOrdinary c = true := by
  revert h
  exact Byte.of_codes (p := fun c => Token.isNumberPart c = true → isOrdinary c = true) (by decide +kernel) c

/-- After the text, braces are nested as deep as given, outside of quotes. -/
def Leaves (depth : Nat) (s : Text) (depth' : Nat) : Prop :=
  ∀ rest, closingBrace? depth none (s ++ rest) = (closingBrace? depth' none rest).map (· + s.length)

theorem leaves_nil (depth : Nat) : Leaves depth [] depth := by
  intro rest
  simp

theorem Leaves.append {t : Text} {depth'' : Nat} (h : Leaves depth s depth') (h' : Leaves depth' t depth'') :
    Leaves depth (s ++ t) depth'' := by
  intro rest
  rw [List.append_assoc, h, h', Option.map_map]
  congr 1
  funext n
  simp only [Function.comp_apply, List.length_append]
  omega

theorem leaves_ordinary (h : ∀ c ∈ s, isOrdinary c = true) : Leaves depth s depth := by
  induction s with
  | nil => exact leaves_nil depth
  | cons c s ih =>
    obtain ⟨first, others⟩ := List.forall_mem_cons.1 h
    intro rest
    simp only [isOrdinary, Bool.not_eq_true', Bool.or_eq_false_iff] at first
    obtain ⟨⟨⟨single, double⟩, opens⟩, closes⟩ := first
    rw [List.cons_append, closingBrace?]
    simp only [single, double, opens, closes, Bool.or_false, Bool.false_eq_true, if_false, ih others rest]
    rw [Option.map_map]
    rfl

/-- Inside quotes only the closing quote and backslashes matter, as for the scanner. -/
theorem closingBrace_string {quote : Byte} (quotes : quote = '\'' ∨ quote = '\"') {t : Text} {n : Nat}
    (h : Token.takeString quote s = some (t, n)) (rest : Text) : closingBrace? depth (some quote) (s ++ rest) =
      (closingBrace? depth none (s.drop n ++ rest)).map (· + n) := by
  fun_induction Token.takeString quote s generalizing t n with
  | case1 => cases h
  | case2 c s closes =>
    cases h
    have plain : (c == '\\') = false := by
      rw [beq_iff_eq.1 closes]
      obtain rfl | rfl := quotes <;> decide
    rw [List.cons_append, closingBrace?.eq_def]
    simp [plain, closes]
  | case3 c opened escapes => cases h
  | case4 c opened escapes d r ih =>
    obtain ⟨⟨t', n'⟩, read, same⟩ := Option.map_eq_some_iff.1 h
    cases same
    rw [List.cons_append, List.cons_append, closingBrace?.eq_def]
    simp [escapes, ih read, Nat.add_assoc, Function.comp_def]
  | case5 c s opened plain ih =>
    obtain ⟨⟨t', n'⟩, read, same⟩ := Option.map_eq_some_iff.1 h
    cases same
    rw [List.cons_append, closingBrace?.eq_def]
    simp [plain, opened, ih read, Nat.add_assoc, Function.comp_def]

theorem leaves_string {quote : Byte} (quotes : quote = '\'' ∨ quote = '\"') {t : Text}
    (h : Token.takeString quote s = some (t, s.length)) : Leaves depth (quote :: s) depth := by
  intro rest
  have opens : (quote == '\'' || quote == '\"') = true := by obtain rfl | rfl := quotes <;> decide
  rw [List.cons_append, closingBrace?, if_pos opens, closingBrace_string quotes h, List.drop_length, List.nil_append,
    Option.map_map]
  rfl

theorem leaves_openBrace (depth : Nat) : Leaves depth Symbol.openBrace.spelling (depth + 1) := fun _ => rfl

theorem leaves_closeBrace (h : 1 < depth) : Leaves depth Symbol.closeBrace.spelling (depth - 1) := by
  intro rest
  change (if depth ≤ 1 then some 0 else (closingBrace? (depth - 1) none rest).map (· + 1)) = _
  rw [if_neg (Nat.not_le.2 h)]
  rfl

/-- **Looking for the brace leaves a lexeme as the scanner does**: outside of quotes. -/
theorem leaves_spelled {x : Lexeme} (h : x.IsSpelled raw) (nest : x.nest depth = some depth') : Leaves depth raw depth' := by
  cases h with
  | decimal parts =>
    cases nest
    exact leaves_ordinary fun c hc => ordinary_of_isNumberPart (parts c hc)
  | written h =>
    cases h with
    | word start parts free =>
      cases nest
      exact leaves_ordinary (List.forall_mem_cons.2 ⟨ordinary_of_isNamePart (Token.of_isNameStart start).2,
        fun c hc => ordinary_of_isNamePart (parts c hc)⟩)
    | keyword k =>
      cases nest
      exact leaves_ordinary (by cases k <;> decide +kernel)
    | symbol s =>
      cases s with
      | openBrace =>
        cases nest
        exact leaves_openBrace depth
      | closeBrace =>
        obtain ⟨deep, same⟩ : ¬ depth ≤ 1 ∧ depth - 1 = depth' := by simpa [Lexeme.nest] using nest
        exact same ▸ leaves_closeBrace (Nat.not_le.1 deep)
      | _ =>
        cases nest
        exact leaves_ordinary (by decide +kernel)
    | integer digits =>
      cases nest
      exact leaves_ordinary fun c hc => ordinary_of_isNumberPart (by simp [Token.isNumberPart, digits c hc])
    | string quotes contents =>
      cases nest
      exact leaves_string quotes contents

theorem leaves_spells {xs : List Lexeme} (h : Spells s xs) (nest : xs.foldlM Lexeme.nest depth = some depth') :
    Leaves depth s depth' := by
  induction h generalizing depth with
  | nil white =>
    cases nest
    exact leaves_ordinary fun c hc => ordinary_of_isWhite (white c hc)
  | cons white spelled more ih =>
    obtain ⟨between, first, others⟩ := Option.bind_eq_some_iff.1 nest
    exact (leaves_ordinary fun c hc => ordinary_of_isWhite (white c hc)).append
      ((leaves_spelled spelled first).append (ih others))

/-- The closing brace is the one after an expression that can be parsed. -/
theorem closingBrace_parsed {source : Text} {e : Expr} (read : Expr.parse source = .ok e) (rest : Text) :
    closingBrace? 1 none (source ++ ('\x7d' : Byte) :: rest) = some source.length := by
  obtain ⟨ts, xs, scanned, lexemes, derives⟩ := Expr.parse_eq_ok_iff.1 read
  obtain ⟨ys, same, spells⟩ := Token.spells_of_scan scanned
  obtain rfl : xs = ys := List.append_cancel_right (lexemes.symm.trans same)
  rw [leaves_spells spells (derives.balanced 1 Nat.one_pos)]
  change (some 0).map (· + source.length) = _
  simp

end Interpolation

/-! ## White space around an expression -/

/-- Trimming takes white space only. -/
theorem Text.mem_trimWhite {s : Text} {c : Byte} (h : c ∈ s) (black : c.isWhite = false) : c ∈ trimWhite s := by
  have kept {t : Text} (mem : c ∈ t) : c ∈ t.dropWhile Byte.isWhite := by
    rw [← List.takeWhile_append_dropWhile (p := Byte.isWhite) (l := t), List.mem_append] at mem
    obtain white | rest := mem
    · exact absurd (List.mem_takeWhile_imp white) (by rw [black]; decide)
    · exact rest
  exact kept (List.mem_reverse.2 (kept (List.mem_reverse.2 h)))

/-- A source that can be parsed is not blank. -/
theorem Expr.trimWhite_ne_nil {source : Text} {e : Expr} (read : parse source = .ok e) : Text.trimWhite source ≠ [] := by
  intro blank
  have white : ∀ c ∈ source, c.isWhite = true := by
    intro c hc
    cases black : c.isWhite with
    | true => rfl
    | false => exact absurd (Text.mem_trimWhite hc black) (by simp [blank])
  obtain ⟨ts, xs, scanned, lexemes, derives⟩ := parse_eq_ok_iff.1 read
  obtain ⟨us, again, none⟩ := Token.scan_of_cuts (.nil white)
  rw [scanned] at again
  cases again
  rw [lexemes] at none
  have length := derives.length_pos
  have empty : xs = [] := List.append_cancel_right none
  rw [empty] at length
  exact Nat.lt_irrefl 0 length

/-! ## Doubled dollars -/

/-- The text with every dollar doubled. -/
def Text.doubled : Text → Text
  | [] => []
  | c :: s => if c == '$' then c :: c :: doubled s else c :: doubled s

namespace Interpolation

theorem cutBraced_skip (s rest : Text) : cutBraced s.length (s ++ rest) = cutBraced 0 rest := by
  induction s with
  | nil => rfl
  | cons c s ih => exact ih

/-- Doubled dollars are kept as they are when a text is cut at its braced expressions. -/
theorem cutBraced_doubled (p rest : Text) :
    cutBraced 0 (Text.doubled p ++ rest) = (Text.doubled p).foldr addByte (cutBraced 0 rest) := by
  induction p with
  | nil => rfl
  | cons c p ih =>
    rw [Text.doubled]
    split
    next dollar =>
      rw [List.foldr_cons, List.foldr_cons, ← ih, List.cons_append, List.cons_append, cutBraced.eq_def]
      simp only [dollar, if_true]
      rfl
    next plain =>
      rw [List.foldr_cons, ← ih, List.cons_append, cutBraced.eq_def]
      simp only [plain]
      rfl

/-- They are made single again when it is searched for the short form. -/
theorem cutShort_doubled (p : Text) : cutShort 0 (Text.doubled p) = p.foldr addByte [] := by
  induction p with
  | nil => rfl
  | cons c p ih =>
    rw [Text.doubled, List.foldr_cons, ← ih]
    split
    next dollar =>
      rw [cutShort.eq_def]
      simp only [dollar, if_true]
      rfl
    next plain =>
      rw [cutShort.eq_def]
      simp only [plain]
      rfl

/-- Bytes in front of an expression, or at the end, make one literal piece. -/
theorem foldr_addByte (p : Text) {fs : List Fragment} (h : ∀ t ∈ fs.head?, ∀ u, t ≠ .literal u) :
    p.foldr addByte fs = (if p = [] then [] else [.literal p]) ++ fs := by
  induction p with
  | nil => rfl
  | cons c p ih =>
    rw [List.foldr_cons, ih]
    cases p with
    | cons d p => rfl
    | nil =>
      cases fs with
      | nil => rfl
      | cons f fs =>
        cases f with
        | literal u => exact absurd rfl (h _ rfl u)
        | expression e => rfl

/-- A source whose closing brace is found, and that is not blank, is cut out. -/
theorem cutBraced_closing {source rest : Text} (closing : closingBrace? 1 none (source ++ ('\x7d' : Byte) :: rest) = some source.length)
    (filled : Text.trimWhite source ≠ []) : cutBraced 0 ('$' :: '\x7b' :: (source ++ ('\x7d' : Byte) :: rest)) =
      .expression ⟨Text.trimWhite source⟩ :: cutBraced 0 rest := by
  have found : (source ++ ('\x7d' : Byte) :: rest).take source.length = source := List.take_left
  have braced : braced? ('\x7b' :: (source ++ ('\x7d' : Byte) :: rest)) = some (Text.trimWhite source, source.length + 2) := by
    simp [braced?, closing, found, List.isEmpty_eq_false_iff.2 filled]
  have skipped : cutBraced (source.length + 2) ('\x7b' :: (source ++ ('\x7d' : Byte) :: rest)) = cutBraced 0 rest := by
    have again := cutBraced_skip ('\x7b' :: (source ++ [('\x7d' : Byte)])) rest
    simpa using again
  rw [cutBraced.eq_def]
  simp only [braced, skipped]
  rfl

theorem cutBraced_braced {source : Text} {e : Expr} (read : Expr.parse source = .ok e) (rest : Text) :
    cutBraced 0 ('$' :: '\x7b' :: (source ++ ('\x7d' : Byte) :: rest)) =
      .expression ⟨Text.trimWhite source⟩ :: cutBraced 0 rest :=
  cutBraced_closing (closingBrace_parsed read rest) (Expr.trimWhite_ne_nil read)

end Interpolation

open Interpolation

theorem Text.doubled_eq_nil {p : Text} : doubled p = [] ↔ p = [] := by
  cases p with
  | nil => simp [doubled]
  | cons c p =>
    rw [doubled]
    split <;> simp

/-- In front of an expression, or at the end, a text with doubled dollars is one literal piece. -/
theorem cutBraced_literal (p : Text) {r : Text} (h : ∀ f ∈ (cutBraced 0 r).head?, ∀ u, f ≠ .literal u) :
    cutBraced 0 (Text.doubled p ++ r) = (if p = [] then [] else [.literal (Text.doubled p)]) ++ cutBraced 0 r := by
  rw [cutBraced_doubled, foldr_addByte _ h]
  simp only [Text.doubled_eq_nil]

theorem cutShort_literal {p : Text} (some : p ≠ []) : cutShort 0 (Text.doubled p) = [.literal p] := by
  rw [cutShort_doubled, foldr_addByte p (by rintro _ ⟨⟩), if_neg some, List.append_nil]

/-- A text with doubled dollars is literal. -/
theorem interpolate_doubled (p : Text) : interpolate (Text.doubled p) = if p = [] then [] else [.literal p] := by
  have cut := cutBraced_literal p (r := []) (by rintro _ ⟨⟩)
  rw [List.append_nil] at cut
  rw [interpolate, cut]
  split
  next => rfl
  next some => simp [cutShort_literal some, cutBraced]

/-- **Interpolation finds the expression**: text with doubled dollars, an expression in braces and any text give the
literal text, the expression and what the last text gives. -/
theorem interpolate_braced {source : Text} {e : Expr} (read : Expr.parse source = .ok e) (p s : Text) :
    interpolate (Text.doubled p ++ "$\x7b" ++ source ++ "\x7d" ++ s) =
      (if p = [] then [] else [.literal p]) ++ .expression ⟨Text.trimWhite source⟩ :: interpolate s := by
  have whole : Text.doubled p ++ "$\x7b" ++ source ++ "\x7d" ++ s =
      Text.doubled p ++ (('$' : Byte) :: '\x7b' :: (source ++ ('\x7d' : Byte) :: s)) := by
    simp only [List.append_assoc]
    rfl
  have found := cutBraced_braced read s
  have cut := cutBraced_literal p (r := '$' :: '\x7b' :: (source ++ ('\x7d' : Byte) :: s))
    (by rw [found]; rintro _ ⟨⟩ u; exact Fragment.noConfusion)
  rw [whole, interpolate, cut, found]
  split
  next => rfl
  next some =>
    rw [List.flatMap_append, List.flatMap_singleton]
    exact congrArg (· ++ _) (cutShort_literal some)

theorem interpolate_braced_dict :
    Expr.parse " \x7b'\x7d': a\x7d" = .ok (.dict [(.literal (.text "\x7d"), .name "a")]) ∧
      interpolate (Text.doubled "$5" ++ "$\x7b" ++ " \x7b'\x7d': a\x7d" ++ "\x7d" ++ "$b") =
        [.literal "$5", .expression ⟨"\x7b'\x7d': a\x7d"⟩, .expression ⟨"b"⟩] := by
  have key : Writes .conditional (Value.quoted "\x7d") (.literal (.text "\x7d")) := (writes_text _).loosen (by decide)
  have value : Writes .conditional "a" (.name "a") := (writes_name (.word (by decide) (by simp) (by decide))).loosen (by decide)
  have dict := (writes_dict (writesEntries_last key value)).blank
  have source : (' ' :: ("\x7b" ++ (Value.quoted "\x7d" ++ ": " ++ "a") ++ "\x7d") : Text) = " \x7b'\x7d': a\x7d" := by
    decide +kernel
  rw [source] at dict
  have read : Expr.parse " \x7b'\x7d': a\x7d" = .ok (.dict [(.literal (.text "\x7d"), .name "a")]) :=
    (dict.loosen (by decide)).parse
  exact ⟨read, (interpolate_braced read "$5" "$b").trans (by decide +kernel)⟩

end Stencil
