import Stencil.Proofs.Text.Numeral
import Stencil.Expr.Token

/-!
# Lexemes and how they are written

A lexeme is a token without its place. `Lexeme.IsWritten` says how a lexeme can be written, and `Cuts` how
a source is made of lexemes: white space may stand anywhere between them, and has to stand where the bytes
that follow would be read as a part of the lexeme before (`Lexeme.Ends`). The scanner finds these lexemes
(`Token.scan_of_cuts`).
-/

namespace Stencil

/-- What a token is, with its text where that matters. -/
inductive Lexeme where
  | word (name : Text)
  | integer (digits : Text)
  | decimal (digits : Text)
  | string (contents : Text)
  | keyword (k : Keyword)
  | symbol (s : Symbol)
  | endOfInput
deriving DecidableEq

/-- The lexeme of a token. -/
def Token.lexeme (t : Token) : Lexeme :=
  match t.kind with
  | .endOfInput => .endOfInput
  | .name => .word t.text
  | .integer => .integer t.text
  | .decimal => .decimal t.text
  | .string => .string t.text
  | .keyword k => .keyword k
  | .symbol s => .symbol s

/-! ## Bytes -/

namespace Token

/-- What a byte that starts a name is not. -/
theorem of_isNameStart {c : Byte} (h : isNameStart c = true) : c.isWhite = false ∧ isNamePart c = true := by
  revert h
  exact Byte.of_codes (p := fun c => isNameStart c = true → c.isWhite = false ∧ isNamePart c = true) (by decide +kernel) c

/-- What a digit is not. -/
theorem of_isDigit {c : Byte} (h : c.isDigit = true) : c.isWhite = false ∧ isNameStart c = false := by
  revert h
  exact Byte.of_codes (p := fun c => c.isDigit = true → c.isWhite = false ∧ isNameStart c = false) (by decide +kernel) c

/-- A byte that is no part of a name is no digit. -/
theorem isDigit_of_isNamePart {c : Byte} (h : isNamePart c = false) : c.isDigit = false ∧ c ≠ 'e' ∧ c ≠ 'E' := by
  revert h
  exact Byte.of_codes (p := fun c => isNamePart c = false → c.isDigit = false ∧ c ≠ 'e' ∧ c ≠ 'E') (by decide +kernel) c

end Token

/-! ## Written lexemes -/

open Token

namespace Lexeme

/-- The texts that a lexeme is written as, apart from numbers with a fraction or an exponent. -/
inductive IsWritten : Lexeme → Text → Prop
  | word {c : Byte} {r : Text} (start : isNameStart c = true) (parts : ∀ d ∈ r, isNamePart d = true)
      (free : Keyword.ofSpelling? (c :: r) = none) : IsWritten (.word (c :: r)) (c :: r)
  | keyword (k : Keyword) : IsWritten (.keyword k) k.spelling
  | symbol (s : Symbol) : IsWritten (.symbol s) s.spelling
  | integer {c : Byte} {r : Text} (digits : ∀ d ∈ c :: r, d.isDigit = true) : IsWritten (.integer (c :: r)) (c :: r)
  | string {quote : Byte} {t s : Text} (quotes : quote = '\'' ∨ quote = '\"')
      (contents : takeString quote s = some (t, s.length)) : IsWritten (.string t) (quote :: s)

/-- The lexeme ends before a text: what follows is not read as a part of it. -/
def Ends : Lexeme → Text → Prop
  | word _, rest | keyword _, rest => ∀ c ∈ rest.head?, isNamePart c = false
  | integer _, rest => (∀ c ∈ rest.head?, c.isDigit = false ∧ c ≠ 'e' ∧ c ≠ 'E') ∧
      ∀ (d : Byte) (r : Text), rest = ('.' : Byte) :: d :: r → d.isDigit = false
  | symbol s, rest => s = .assign ∨ s = .less ∨ s = .greater → rest.head? ≠ some '='
  | _, _ => True

end Lexeme

/-- Every lexeme ends before the text. -/
def Settled (rest : Text) : Prop :=
  (∀ c ∈ rest.head?, isNamePart c = false ∧ c ≠ '=') ∧ ∀ (d : Byte) (r : Text), rest = ('.' : Byte) :: d :: r → d.isDigit = false

theorem Settled.ends {rest : Text} (h : Settled rest) (x : Lexeme) : x.Ends rest := by
  cases x with
  | word | keyword => exact fun c hc => (h.1 c hc).1
  | integer => exact ⟨fun c hc => isDigit_of_isNamePart (h.1 c hc).1, h.2⟩
  | symbol => exact fun _ same => (h.1 _ same).2 rfl
  | _ => trivial

theorem settled_nil : Settled [] := ⟨by simp, by simp⟩

/-- A byte that neither goes on nor starts a fraction. -/
theorem settled_cons {c : Byte} (h : isNamePart c = false ∧ c ≠ '=' ∧ c ≠ '.') (rest : Text) : Settled (c :: rest) := by
  refine ⟨by rintro _ ⟨⟩; exact ⟨h.1, h.2.1⟩, ?_⟩
  rintro d r same
  exact absurd (List.cons.inj same).1 h.2.2

/-! ## Scanning a lexeme -/

namespace Token

theorem takeWhile_of_ends {α : Type} {p : α → Bool} {a rest : List α} (all : ∀ c ∈ a, p c = true)
    (ends : ∀ c ∈ rest.head?, p c = false) : (a ++ rest).takeWhile p = a := by
  rw [List.takeWhile_append_of_pos all]
  cases rest with
  | nil => simp
  | cons c rest => simp [ends c rfl]

theorem dropWhile_of_ends {α : Type} {p : α → Bool} {a rest : List α} (all : ∀ c ∈ a, p c = true)
    (ends : ∀ c ∈ rest.head?, p c = false) : (a ++ rest).dropWhile p = rest := by
  have whole := List.takeWhile_append_dropWhile (p := p) (l := a ++ rest)
  rw [takeWhile_of_ends all ends] at whole
  exact List.append_cancel_left whole

theorem first_word {c : Byte} {r rest : Text} (start : isNameStart c = true) (parts : ∀ d ∈ r, isNamePart d = true)
    (ends : ∀ d ∈ rest.head?, isNamePart d = false) (source : Text) (offset : Nat) :
    first source offset (c :: r ++ rest) = .ok ⟨match Keyword.ofSpelling? (c :: r) with
      | some k => .keyword k
      | none => .name, c :: r, offset, (c :: r).length⟩ := by
  have word : (c :: (r ++ rest)).takeWhile isNamePart = c :: r :=
    takeWhile_of_ends (a := c :: r) (List.forall_mem_cons.2 ⟨(of_isNameStart start).2, parts⟩) ends
  have opened : first source offset (c :: (r ++ rest)) = _ := if_pos start
  rw [word] at opened
  exact opened

theorem numberSpan_integer {d rest : Text} (digits : ∀ c ∈ d, c.isDigit = true)
    (ends : (Lexeme.integer d).Ends rest) : numberSpan (d ++ rest) = (d.length, false) := by
  obtain ⟨next, point⟩ := ends
  have whole : (d ++ rest).takeWhile Byte.isDigit = d := takeWhile_of_ends digits fun c hc => (next c hc).1
  unfold numberSpan
  simp only [whole, List.drop_left]
  cases rest with
  | nil => rfl
  | cons c r =>
    have noExponent : (c == ('e' : Byte) || c == ('E' : Byte)) = false := by
      obtain ⟨-, small, capital⟩ := next c rfl
      simp [small, capital]
    cases r with
    | nil => simp [noExponent]
    | cons d r =>
      have noFraction : (c == ('.' : Byte) && d.isDigit) = false := by
        rw [Bool.and_eq_false_iff]
        by_cases dot : c = '.'
        · exact .inr (point d r (by rw [dot]))
        · exact .inl (by simpa using dot)
      simp [noFraction, noExponent]

theorem takeString_append {quote : Byte} {s t : Text} {n : Nat} (h : takeString quote s = some (t, n)) (rest : Text) :
    takeString quote (s ++ rest) = some (t, n) := by
  fun_induction takeString quote s generalizing t n with
  | case1 => cases h
  | case2 c s closes =>
    cases h
    rw [List.cons_append, takeString.eq_def]
    simp [closes]
  | case3 c opened escapes => cases h
  | case4 c opened escapes d r ih =>
    obtain ⟨⟨t', n'⟩, read, same⟩ := Option.map_eq_some_iff.1 h
    cases same
    simp [takeString, opened, escapes, ih read]
  | case5 c s opened plain ih =>
    obtain ⟨⟨t', n'⟩, read, same⟩ := Option.map_eq_some_iff.1 h
    cases same
    rw [List.cons_append, takeString.eq_def]
    simp [opened, plain, ih read]

theorem ofStart_spelling (s : Symbol) {rest : Text} (ends : (Lexeme.symbol s).Ends rest) :
    Symbol.ofStart? (s.spelling ++ rest) = some s := by
  -- a symbol that another one starts with is told apart by the equals sign
  have other {c : Byte} {r : Text} (same : rest = c :: r) (starts : s = .assign ∨ s = .less ∨ s = .greater) :
      (61 == c) = false := by
    rw [beq_eq_false_iff_ne]
    rintro rfl
    exact ends starts (by rw [same]; rfl)
  cases s with
  | assign =>
    cases rest with
    | nil => rfl
    | cons c rest =>
      change (match (61 == c && true) with | true => some Symbol.equal | false => some Symbol.assign) = _
      rw [other rfl (.inl rfl)]
      rfl
  | less =>
    cases rest with
    | nil => rfl
    | cons c rest =>
      change (match (61 == c && true) with | true => some Symbol.lessEqual | false => some Symbol.less) = _
      rw [other rfl (.inr (.inl rfl))]
      rfl
  | greater =>
    cases rest with
    | nil => rfl
    | cons c rest =>
      change (match (61 == c && true) with | true => some Symbol.greaterEqual | false => some Symbol.greater) = _
      rw [other rfl (.inr (.inr rfl))]
      rfl
  | _ => rfl

theorem spelling_symbol (s : Symbol) : ∃ c r, s.spelling = c :: r ∧ c.isWhite = false ∧ isNameStart c = false ∧
    c.isDigit = false ∧ (c == '\'' || c == '\"') = false := by
  cases s <;> exact ⟨_, _, rfl, by decide, by decide, by decide, by decide⟩

theorem first_symbol (s : Symbol) {rest : Text} (ends : (Lexeme.symbol s).Ends rest) (source : Text) (offset : Nat) :
    first source offset (s.spelling ++ rest) = .ok ⟨.symbol s, [], offset, s.spelling.length⟩ := by
  obtain ⟨c, r, spelling, -, noName, noDigit, noQuote⟩ := spelling_symbol s
  have found : Symbol.ofStart? (c :: (r ++ rest)) = some s := by
    rw [← List.cons_append, ← spelling]
    exact ofStart_spelling s ends
  rw [spelling, List.cons_append]
  simp only [first, noName, noDigit, noQuote, found, Bool.false_eq_true, if_false, spelling]

theorem spelling_word (k : Keyword) : ∃ c r, k.spelling = c :: r ∧ isNameStart c = true ∧
    (∀ d ∈ r, isNamePart d = true) ∧ Keyword.ofSpelling? (c :: r) = some k := by
  cases k <;> exact ⟨_, _, rfl, by decide, by decide +kernel, by decide⟩

/-- No white space stands at the start of a lexeme. -/
theorem white_of_isWritten {x : Lexeme} {raw : Text} (h : x.IsWritten raw) : ∃ c r, raw = c :: r ∧ c.isWhite = false := by
  cases h with
  | word start parts free => exact ⟨_, _, rfl, (of_isNameStart start).1⟩
  | keyword k =>
    obtain ⟨c, r, same, start, -⟩ := spelling_word k
    exact ⟨c, r, same, (of_isNameStart start).1⟩
  | symbol s =>
    obtain ⟨c, r, same, black, -⟩ := spelling_symbol s
    exact ⟨c, r, same, black⟩
  | integer digits => exact ⟨_, _, rfl, (of_isDigit (digits _ List.mem_cons_self)).1⟩
  | string quotes contents => exact ⟨_, _, rfl, by rcases quotes with rfl | rfl <;> decide⟩

/-- **The scanner takes a written lexeme off the start of a text.** -/
theorem first_written {x : Lexeme} {raw rest : Text} (h : x.IsWritten raw) (ends : x.Ends rest) (source : Text)
    (offset : Nat) : ∃ t, first source offset (raw ++ rest) = .ok t ∧ t.lexeme = x ∧ t.length = raw.length := by
  cases h with
  | word start parts free => exact ⟨_, first_word start parts ends source offset, by simp [free, lexeme], rfl⟩
  | keyword k =>
    obtain ⟨c, r, same, start, parts, known⟩ := spelling_word k
    rw [same]
    exact ⟨_, first_word start parts ends source offset, by simp [known, lexeme], rfl⟩
  | symbol s => exact ⟨_, first_symbol s ends source offset, rfl, rfl⟩
  | @integer c r digits =>
    have digit := digits c List.mem_cons_self
    have span : numberSpan (c :: (r ++ rest)) = ((c :: r).length, false) := numberSpan_integer digits ends
    refine ⟨⟨.integer, c :: r, offset, (c :: r).length⟩, ?_, rfl, rfl⟩
    simp only [first, List.cons_append, (of_isDigit digit).2, digit, span, if_true, Bool.false_eq_true, if_false]
    rw [← List.cons_append, List.take_left]
  | @string quote t s quotes contents =>
    have read := takeString_append contents rest
    refine ⟨⟨.string, t, offset, s.length + 1⟩, ?_, rfl, rfl⟩
    have opens : isNameStart quote = false ∧ quote.isDigit = false ∧ (quote == '\'' || quote == '\"') = true := by
      rcases quotes with rfl | rfl <;> decide
    simp only [first, List.cons_append, opens, read, if_true, Bool.false_eq_true, if_false]

end Token

/-! ## Sources -/

/-- The text is made of the lexemes, with white space between them. -/
inductive Cuts : Text → List Lexeme → Prop
  | nil {blank : Text} (white : ∀ c ∈ blank, c.isWhite = true) : Cuts blank []
  | cons {blank raw rest : Text} {x : Lexeme} {xs : List Lexeme} (white : ∀ c ∈ blank, c.isWhite = true)
      (written : x.IsWritten raw) (ends : x.Ends rest) (more : Cuts rest xs) : Cuts (blank ++ (raw ++ rest)) (x :: xs)

namespace Token

theorem scanFrom_of_cuts {s source : Text} {xs : List Lexeme} (h : Cuts s xs) {steps : Nat} (enough : s.length < steps)
    (offset : Nat) : ∃ ts, scanFrom source steps offset s = .ok ts ∧ ts.map lexeme = xs ++ [.endOfInput] := by
  induction h generalizing steps offset with
  | @nil blank white =>
    obtain ⟨steps, rfl⟩ : ∃ n, steps = n + 1 := ⟨steps - 1, by omega⟩
    have all : blank.takeWhile Byte.isWhite = blank := List.takeWhile_eq_self_iff.2 white
    refine ⟨[⟨.endOfInput, [], offset + blank.length, 0⟩], ?_, rfl⟩
    simp only [scanFrom, all, List.drop_length, first, if_true]
  | @cons blank raw rest x xs white written ends more ih =>
    obtain ⟨steps, rfl⟩ : ∃ n, steps = n + 1 := ⟨steps - 1, by omega⟩
    obtain ⟨c, r, start, black⟩ := white_of_isWritten written
    have skipped : (blank ++ (raw ++ rest)).takeWhile Byte.isWhite = blank :=
      takeWhile_of_ends white (by rw [start]; rintro _ ⟨⟩; exact black)
    obtain ⟨t, read, known, length⟩ := first_written written ends source (offset + blank.length)
    have goesOn : t.kind ≠ .endOfInput := by
      intro ended
      have none : x = .endOfInput := by rw [← known, lexeme, ended]
      rw [none] at written
      cases written
    have shorter : rest.length < steps := by
      simp only [List.length_append, start, List.length_cons] at enough
      omega
    obtain ⟨ts, rests, lexemes⟩ := ih shorter (offset + blank.length + t.length)
    refine ⟨t :: ts, ?_, by simp [known, lexemes]⟩
    simp only [scanFrom, skipped, List.drop_left, read, goesOn, if_false, length]
    rw [← length, rests]

/-- **The scanner finds the lexemes that a source is made of.** -/
theorem scan_of_cuts {source : Text} {xs : List Lexeme} (h : Cuts source xs) :
    ∃ ts, scan source = .ok ts ∧ ts.map lexeme = xs ++ [.endOfInput] := scanFrom_of_cuts h (Nat.lt_succ_self _) 0

end Token

end Stencil
