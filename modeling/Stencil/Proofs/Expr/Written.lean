import Stencil.Proofs.Expr.Derivation
import Stencil.Value.Basic

/-!
# Writing expressions

`Writes level t e` says that the text `t` is a way to write the expression `e` where an expression of the level is
wanted, whatever stands after it, as long as that does not go on the last lexeme (`Settled`). There is one lemma for
each form of expression, and `Writes.parse` reads a written expression back.
-/

namespace Stencil

open Token

/-! ## Strings in quotes -/

/-- Inside quotes a byte stands for itself, or after a backslash a byte stands for it. -/
theorem escape_cases {quote : Byte} (quotes : quote = '\'' ∨ quote = '\"') (c : Byte) :
    (Value.escape quote c = [c] ∧ (c == quote) = false ∧ (c == '\\') = false) ∨
      ∃ d, Value.escape quote c = [('\\' : Byte), d] ∧ unescape d = [c] := by
  have cases : (Value.escape quote c = [c] ∧ (c == quote) = false ∧ (c == '\\') = false) ∨
      (Value.escape quote c = [('\\' : Byte), (Value.escape quote c).getD 1 0] ∧
        unescape ((Value.escape quote c).getD 1 0) = [c]) := by
    obtain rfl | rfl := quotes
    · exact Byte.of_codes (p := fun c => (Value.escape '\'' c = [c] ∧ (c == '\'') = false ∧ (c == '\\') = false) ∨
        (Value.escape '\'' c = [('\\' : Byte), (Value.escape '\'' c).getD 1 0] ∧
          unescape ((Value.escape '\'' c).getD 1 0) = [c])) (by decide +kernel) c
    · exact Byte.of_codes (p := fun c => (Value.escape '\"' c = [c] ∧ (c == '\"') = false ∧ (c == '\\') = false) ∨
        (Value.escape '\"' c = [('\\' : Byte), (Value.escape '\"' c).getD 1 0] ∧
          unescape ((Value.escape '\"' c).getD 1 0) = [c])) (by decide +kernel) c
  exact cases.imp_right fun h => ⟨_, h⟩

/-- A byte of a string is read back from its place inside the quotes. -/
theorem takeString_escape {quote : Byte} (quotes : quote = '\'' ∨ quote = '\"') (c : Byte) (rest : Text) :
    takeString quote (Value.escape quote c ++ rest) =
      (takeString quote rest).map fun (t, n) => (c :: t, n + (Value.escape quote c).length) := by
  obtain ⟨same, opened, plain⟩ | ⟨d, same, back⟩ := escape_cases quotes c
  · rw [same, List.singleton_append, takeString.eq_def]
    simp only [opened, plain, Bool.false_eq_true, if_false]
    rfl
  · have other : (('\\' : Byte) == quote) = false := by obtain rfl | rfl := quotes <;> decide
    rw [same, List.cons_append, List.cons_append, List.nil_append, takeString.eq_def]
    simp only [other, back, beq_self_eq_true, Bool.false_eq_true, if_false, if_true]
    rfl

theorem takeString_quoted {quote : Byte} (quotes : quote = '\'' ∨ quote = '\"') (s : Text) :
    takeString quote (s.flatMap (Value.escape quote) ++ [quote]) =
      some (s, (s.flatMap (Value.escape quote) ++ [quote]).length) := by
  induction s with
  | nil => simp [takeString]
  | cons c s ih =>
    rw [List.flatMap_cons, List.append_assoc, takeString_escape quotes, ih]
    simp [Nat.add_comm]

/-- A string in quotes is read as that string. -/
theorem written_quoted (s : Text) : (Lexeme.string s).IsWritten (Value.quoted s) := by
  have quotes : Value.quoteFor s = '\'' ∨ Value.quoteFor s = '\"' := by
    unfold Value.quoteFor
    split
    · exact .inr rfl
    · exact .inl rfl
  exact .string quotes (takeString_quoted quotes s)

/-! ## Writing lexemes -/

/-- The text is made of the lexemes wherever it stands, before what does not go on the last one. -/
def Writing (t : Text) (xs : List Lexeme) : Prop :=
  ∀ rest ys, Settled rest → Cuts rest ys → Cuts (t ++ rest) (xs ++ ys)

theorem Writing.cuts {t : Text} {xs : List Lexeme} (h : Writing t xs) : Cuts t xs := by
  simpa using h [] [] settled_nil (.nil (by simp))

theorem Cuts.blank {s : Text} {xs : List Lexeme} (h : Cuts s xs) : Cuts (' ' :: s) xs := by
  cases h with
  | nil white => exact .nil (List.forall_mem_cons.2 ⟨by decide, white⟩)
  | cons white written ends more => exact @Cuts.cons (' ' :: _) _ _ _ _ (List.forall_mem_cons.2 ⟨by decide, white⟩) written ends more

theorem writing_nil : Writing [] [] := fun _ _ _ h => h

variable {t u raw : Text} {x : Lexeme} {xs ys : List Lexeme}

theorem Writing.blank (h : Writing t xs) : Writing (' ' :: t) xs := fun rest ys settled more => (h rest ys settled more).blank

/-- Nothing that the text starts with goes on a lexeme. -/
def Parts (t : Text) : Prop := ∀ rest, Settled rest → Settled (t ++ rest)

theorem parts_cons {c : Byte} (h : isNamePart c = false ∧ c ≠ '=' ∧ c ≠ '.') (t : Text) : Parts (c :: t) :=
  fun _ _ => settled_cons h _

theorem parts_symbol {s : Symbol} (h : s ∉ [Symbol.assign, .equal, .dot]) (t : Text) : Parts (s.spelling ++ t) := by
  cases s <;> first | exact parts_cons (by decide) _ | exact absurd (by decide) h

theorem Writing.cons (written : x.IsWritten raw) (ends : ∀ rest, Settled rest → x.Ends (t ++ rest)) (h : Writing t xs) :
    Writing (raw ++ t) (x :: xs) := by
  intro rest ys settled more
  rw [List.append_assoc]
  exact @Cuts.cons [] _ _ _ _ (by simp) written (ends rest settled) (h rest ys settled more)

theorem Writing.append (h : Writing t xs) (parts : Parts u) (h' : Writing u ys) : Writing (t ++ u) (xs ++ ys) := by
  intro rest zs settled more
  rw [List.append_assoc, List.append_assoc]
  exact h _ _ (parts rest settled) (h' rest zs settled more)

theorem writing_lexeme (written : x.IsWritten raw) : Writing raw [x] := by
  have alone := writing_nil.cons (t := []) written fun rest settled => settled.ends x
  rwa [List.append_nil] at alone

/-- A symbol after the text. -/
theorem Writing.closed (h : Writing t xs) {s : Symbol} (apart : s ∉ [Symbol.assign, .equal, .dot]) :
    Writing (t ++ s.spelling) (xs ++ [.symbol s]) := by
  have parts := parts_symbol apart []
  rw [List.append_nil] at parts
  exact h.append parts (writing_lexeme (.symbol s))

/-- A lexeme and a blank. -/
theorem Writing.spaced (h : Writing t xs) (written : x.IsWritten raw) : Writing (raw ++ (' ' : Byte) :: t) (x :: xs) :=
  h.blank.cons written fun rest _ => (settled_cons (by decide) (t ++ rest)).ends x

/-- A symbol and a blank between two texts. -/
theorem Writing.separated (h : Writing t xs) {s : Symbol} (apart : s ∉ [Symbol.assign, .equal, .dot]) (h' : Writing u ys) :
    Writing (t ++ (s.spelling ++ (' ' : Byte) :: u)) (xs ++ .symbol s :: ys) :=
  h.append (parts_symbol apart _) (h'.spaced (.symbol s))

/-- A symbol that no longer symbol starts with. -/
theorem Writing.symbol (h : Writing t xs) {s : Symbol} (short : s ∉ [Symbol.assign, .less, .greater]) :
    Writing (s.spelling ++ t) (.symbol s :: xs) :=
  h.cons (.symbol s) fun _ _ longer => absurd longer (by simpa using short)

/-- The text of an operator. -/
def Operator.text : Operator → Text
  | or => "or"
  | and => "and"
  | equal => "=="
  | notEqual => "!="
  | less => "<"
  | lessEqual => "<="
  | greater => ">"
  | greaterEqual => ">="
  | «in» => "in"
  | notIn => "not in"
  | is => "is"
  | isNot => "is not"
  | add => "+"
  | subtract => "-"
  | multiply => "*"
  | divide => "/"
  | modulo => "%"

theorem Writing.operator (h : Writing t xs) (op : Operator) : Writing (op.text ++ (' ' : Byte) :: t) (op.lexemes ++ xs) := by
  cases op with
  | notIn => exact (h.spaced (.keyword .in)).spaced (.keyword .not)
  | isNot => exact (h.spaced (.keyword .not)).spaced (.keyword .is)
  | or => exact h.spaced (.keyword .or)
  | and => exact h.spaced (.keyword .and)
  | «in» => exact h.spaced (.keyword .in)
  | is => exact h.spaced (.keyword .is)
  | equal => exact h.spaced (.symbol .equal)
  | notEqual => exact h.spaced (.symbol .notEqual)
  | less => exact h.spaced (.symbol .less)
  | lessEqual => exact h.spaced (.symbol .lessEqual)
  | greater => exact h.spaced (.symbol .greater)
  | greaterEqual => exact h.spaced (.symbol .greaterEqual)
  | add => exact h.spaced (.symbol .plus)
  | subtract => exact h.spaced (.symbol .minus)
  | multiply => exact h.spaced (.symbol .star)
  | divide => exact h.spaced (.symbol .slash)
  | modulo => exact h.spaced (.symbol .percent)

/-! ## Writing expressions -/

/-- The text is a way to write the expression where one of the level is wanted. -/
def Writes (level : Level) (t : Text) (e : Expr) : Prop := ∃ xs, Writing t xs ∧ Derives level xs e

/-- **A written expression is read back.** -/
theorem Writes.parse {e : Expr} (h : Writes .conditional t e) : Expr.parse t = .ok e := by
  obtain ⟨xs, writing, derives⟩ := h
  obtain ⟨ts, scanned, lexemes⟩ := Token.scan_of_cuts writing.cuts
  exact Expr.parse_of_derives scanned lexemes derives

theorem Level.eq_of_rank {level level' : Level} (h : level.rank = level'.rank) : level = level' := by
  cases level <;> cases level' <;> first | rfl | cases h

/-- What binds tightly may stand where something looser is wanted. -/
theorem Level.loosen {P : Level → Prop} (tighter : ∀ level, level ≠ .atom → P level.operand → P level) {level level' : Level}
    (h : P level) (le : level'.rank ≤ level.rank) : P level' := by
  obtain ⟨k, gap⟩ := Nat.exists_eq_add_of_le le
  induction k generalizing level' with
  | zero => exact Level.eq_of_rank gap ▸ h
  | succ k ih =>
    have loose : level' ≠ .atom := by
      rintro rfl
      have low := (Level.inner_le level).2
      change level.rank = 9 + (k + 1) at gap
      omega
    have rank := Level.rank_operand loose
    exact tighter level' loose (ih (by omega) (by omega))

theorem Derives.loosen {level level' : Level} {e : Expr} (h : Derives level xs e) (le : level'.rank ≤ level.rank) :
    Derives level' xs e :=
  Level.loosen (P := fun level => Derives level xs e) (fun _ loose => .tighter loose) h le

variable {v w : Text} {level : Level} {e : Expr}

theorem Writes.loosen {level' : Level} (h : Writes level t e) (le : level'.rank ≤ level.rank) : Writes level' t e := by
  obtain ⟨xs, writing, derives⟩ := h
  exact ⟨xs, writing, derives.loosen le⟩

theorem Writes.blank (h : Writes level t e) : Writes level (' ' :: t) e := by
  obtain ⟨xs, writing, derives⟩ := h
  exact ⟨xs, writing.blank, derives⟩

theorem writes_conditional {value test other : Expr} (first : Writes .disjunction t value)
    (second : Writes .disjunction u test) (third : Writes .conditional v other) :
    Writes .conditional (t ++ " if " ++ u ++ " else " ++ v) (.conditional test value other) := by
  obtain ⟨xs, writing, derives⟩ := first
  obtain ⟨ys, writing', derives'⟩ := second
  obtain ⟨zs, writing'', derives''⟩ := third
  refine ⟨_, ?_, .conditional derives derives' derives''⟩
  have last := (writing''.spaced (.keyword .else)).blank
  have middle := ((writing'.append (parts_cons (by decide) _) last).spaced (.keyword .if)).blank
  simp only [List.append_assoc]
  exact writing.append (parts_cons (by decide) _) middle

theorem writes_binary {op : Operator} {left right : Expr} (first : Writes op.level t left)
    (second : Writes op.level.operand u right) :
    Writes op.level (t ++ " " ++ op.text ++ " " ++ u) (.binary op left right) := by
  obtain ⟨xs, writing, derives⟩ := first
  obtain ⟨ys, writing', derives'⟩ := second
  refine ⟨_, ?_, .binary derives derives'⟩
  simp only [List.append_assoc]
  exact writing.append (parts_cons (by decide) _) (writing'.operator op).blank

theorem writes_not (h : Writes .negation t e) : Writes .negation ("not " ++ t) (.unary .not e) := by
  obtain ⟨xs, writing, derives⟩ := h
  exact ⟨_, writing.spaced (.keyword .not), .not derives⟩

theorem writes_negate (h : Writes .sign t e) : Writes .sign ("-" ++ t) (.unary .negate e) := by
  obtain ⟨xs, writing, derives⟩ := h
  exact ⟨_, writing.symbol (s := .minus) (by decide), .negate derives⟩

theorem writes_identity (h : Writes .sign t e) : Writes .sign ("+" ++ t) (.unary .identity e) := by
  obtain ⟨xs, writing, derives⟩ := h
  exact ⟨_, writing.symbol (s := .plus) (by decide), .identity derives⟩

theorem writes_member {object : Expr} {name : Text} (first : Writes .access t object)
    (proper : (Lexeme.word name).IsWritten name) : Writes .access (t ++ "." ++ name) (.member object name) := by
  obtain ⟨xs, writing, derives⟩ := first
  refine ⟨_, ?_, .member derives⟩
  have last := (writing_lexeme proper).symbol (s := .dot) (by decide)
  -- the point starts no fraction, as no digit starts a name
  have parts : Parts (Symbol.dot.spelling ++ name) := by
    cases proper with
    | @word c r start parts free =>
      refine fun rest _ => ⟨by rintro _ ⟨⟩; decide, ?_⟩
      rintro _ _ ⟨⟩
      cases digit : c.isDigit with
      | false => rfl
      | true => exact absurd start (by rw [(of_isDigit digit).2]; decide)
  rw [List.append_assoc]
  exact writing.append parts last

theorem writes_item {object key : Expr} (first : Writes .access t object) (second : Writes .conditional u key) :
    Writes .access (t ++ "[" ++ u ++ "]") (.item object key) := by
  obtain ⟨xs, writing, derives⟩ := first
  obtain ⟨ys, writing', derives'⟩ := second
  refine ⟨_, ?_, .item derives derives'⟩
  have closed := writing'.closed (s := .closeBracket) (by decide)
  simp only [List.append_assoc]
  exact writing.append (parts_symbol (s := .openBracket) (by decide) _) (closed.symbol (s := .openBracket) (by decide))

theorem writes_name {name : Text} (proper : (Lexeme.word name).IsWritten name) : Writes .atom name (.name name) :=
  ⟨_, writing_lexeme proper, .name name⟩

theorem writes_none : Writes .atom "None" (.literal .none) := ⟨_, writing_lexeme (.keyword .none), .none⟩

theorem writes_bool (b : Bool) : Writes .atom (if b then "True" else "False") (.literal (.bool b)) := by
  cases b
  · exact ⟨_, writing_lexeme (.keyword .false), .false⟩
  · exact ⟨_, writing_lexeme (.keyword .true), .true⟩

theorem writes_text (s : Text) : Writes .atom (Value.quoted s) (.literal (.text s)) := by
  have derives := Derives.text s []
  rw [List.flatten_nil, List.append_nil] at derives
  exact ⟨_, writing_lexeme (written_quoted s), derives⟩

/-- An integer that is not negative. -/
theorem writes_int {n : Int64} {k : Nat} (h : n.toInt = k) : Writes .atom (Text.ofNat k) (.literal (.int n)) := by
  have written : (Lexeme.integer (Text.ofNat k)).IsWritten (Text.ofNat k) := by
    have digits : ∀ c ∈ Text.ofNat k, c.isDigit = true := fun c => Text.isDigit_of_mem_ofNat
    cases same : Text.ofNat k with
    | nil => exact absurd same (Text.ofNat_ne_nil k)
    | cons c r => exact .integer (same ▸ digits)
  exact ⟨_, writing_lexeme written, .integer (Text.toInt64_ofNat h)⟩

theorem writes_parenthesised (h : Writes .conditional t e) : Writes .atom ("(" ++ t ++ ")") e := by
  obtain ⟨xs, writing, derives⟩ := h
  refine ⟨_, ?_, .parenthesised derives⟩
  rw [List.append_assoc]
  exact (writing.closed (s := .closeParen) (by decide)).symbol (s := .openParen) (by decide)

/-! ## Displays and calls -/

theorem join_cons (t u : Text) (ts : List Text) : Text.join ", " (t :: u :: ts) = t ++ ", " ++ Text.join ", " (u :: ts) := by
  simp [Text.join, List.intercalate]

/-- The text is a way to write the elements of a list display. -/
def WritesElements (t : Text) (es : List Expr) : Prop :=
  ∃ xs, Writing (t ++ "]") xs ∧ DerivesElements .closeBracket xs es

theorem writesElements_nil : WritesElements [] [] := ⟨_, writing_lexeme (.symbol .closeBracket), .nil .closeBracket⟩

theorem writesElements_last (h : Writes .conditional t e) : WritesElements t [e] := by
  obtain ⟨xs, writing, derives⟩ := h
  exact ⟨_, writing.closed (s := .closeBracket) (by decide), .last derives⟩

theorem writesElements_cons {es : List Expr} (first : Writes .conditional t e) (others : WritesElements u es) :
    WritesElements (t ++ ", " ++ u) (e :: es) := by
  obtain ⟨xs, writing, derives⟩ := first
  obtain ⟨ys, writing', derives'⟩ := others
  refine ⟨_, ?_, .cons derives derives'⟩
  simp only [List.append_assoc]
  exact writing.separated (s := .comma) (by decide) writing'

theorem writes_list {es : List Expr} (h : WritesElements t es) : Writes .atom ("[" ++ t ++ "]") (.list es) := by
  obtain ⟨xs, writing, derives⟩ := h
  refine ⟨_, ?_, .list derives⟩
  rw [List.append_assoc]
  exact writing.symbol (s := .openBracket) (by decide)

/-- The text is a way to write the entries of a dict display. -/
def WritesEntries (t : Text) (es : List (Expr × Expr)) : Prop := ∃ xs, Writing (t ++ "\x7d") xs ∧ DerivesEntries xs es

theorem writesEntries_nil : WritesEntries [] [] := ⟨_, writing_lexeme (.symbol .closeBrace), .nil⟩

theorem writesEntries_last {value : Expr} (first : Writes .conditional t e) (second : Writes .conditional u value) :
    WritesEntries (t ++ ": " ++ u) [(e, value)] := by
  obtain ⟨xs, writing, derives⟩ := first
  obtain ⟨ys, writing', derives'⟩ := second
  refine ⟨_, ?_, .last derives derives'⟩
  simp only [List.append_assoc]
  exact writing.separated (s := .colon) (by decide) (writing'.closed (s := .closeBrace) (by decide))

theorem writesEntries_cons {value : Expr} {es : List (Expr × Expr)} (first : Writes .conditional t e)
    (second : Writes .conditional u value) (others : WritesEntries v es) :
    WritesEntries (t ++ ": " ++ u ++ ", " ++ v) ((e, value) :: es) := by
  obtain ⟨xs, writing, derives⟩ := first
  obtain ⟨ys, writing', derives'⟩ := second
  obtain ⟨zs, writing'', derives''⟩ := others
  refine ⟨_, ?_, .cons derives derives' derives''⟩
  simp only [List.append_assoc]
  exact writing.separated (s := .colon) (by decide) (writing'.separated (s := .comma) (by decide) writing'')

theorem writes_dict {es : List (Expr × Expr)} (h : WritesEntries t es) :
    Writes .atom ("\x7b" ++ t ++ "\x7d") (.dict es) := by
  obtain ⟨xs, writing, derives⟩ := h
  refine ⟨_, ?_, .dict derives⟩
  rw [List.append_assoc]
  exact writing.symbol (s := .openBrace) (by decide)

/-- The text is a way to write the arguments of a call. -/
def WritesArguments (keywordSeen : Bool) (t : Text) (arguments : List Expr) (keywords : List (Text × Expr)) : Prop :=
  ∃ xs, Writing (t ++ ")") xs ∧ DerivesArguments keywordSeen xs arguments keywords

theorem writesArguments_nil (keywordSeen : Bool) : WritesArguments keywordSeen [] [] [] :=
  ⟨_, writing_lexeme (.symbol .closeParen), .nil keywordSeen⟩

theorem writesArguments_last (h : Writes .conditional t e) : WritesArguments false t [e] [] := by
  obtain ⟨xs, writing, derives⟩ := h
  exact ⟨_, writing.closed (s := .closeParen) (by decide), .positional derives (.close false)⟩

theorem writesArguments_cons {arguments : List Expr} {keywords : List (Text × Expr)} (first : Writes .conditional t e)
    (others : WritesArguments false u arguments keywords) :
    WritesArguments false (t ++ ", " ++ u) (e :: arguments) keywords := by
  obtain ⟨xs, writing, derives⟩ := first
  obtain ⟨ys, writing', derives'⟩ := others
  refine ⟨_, ?_, .positional derives (.comma derives')⟩
  simp only [List.append_assoc]
  exact writing.separated (s := .comma) (by decide) writing'

theorem writing_keyword {name : Text} (proper : (Lexeme.word name).IsWritten name) (h : Writing t xs) :
    Writing (name ++ " = " ++ t) (.word name :: .symbol .assign :: xs) := by
  simp only [List.append_assoc]
  have assigned := (h.spaced (.symbol .assign)).spaced proper
  exact assigned

theorem writesArguments_keyword_last {keywordSeen : Bool} {name : Text} (proper : (Lexeme.word name).IsWritten name)
    (h : Writes .conditional t e) : WritesArguments keywordSeen (name ++ " = " ++ t) [] [(name, e)] := by
  obtain ⟨xs, writing, derives⟩ := h
  refine ⟨_, ?_, .keyword derives (.close true)⟩
  have written := writing_keyword proper (writing.closed (s := .closeParen) (by decide))
  simp only [List.append_assoc] at written ⊢
  exact written

theorem writesArguments_keyword_cons {keywordSeen : Bool} {name : Text} {keywords : List (Text × Expr)}
    (proper : (Lexeme.word name).IsWritten name) (first : Writes .conditional t e)
    (others : WritesArguments true u [] keywords) :
    WritesArguments keywordSeen (name ++ " = " ++ t ++ ", " ++ u) [] ((name, e) :: keywords) := by
  obtain ⟨xs, writing, derives⟩ := first
  obtain ⟨ys, writing', derives'⟩ := others
  refine ⟨_, ?_, .keyword derives (.comma derives')⟩
  have written := writing_keyword proper
    (writing.separated (s := .comma) (by decide) writing')
  simp only [List.append_assoc] at written ⊢
  exact written

theorem writes_call {function : Expr} {arguments : List Expr} {keywords : List (Text × Expr)}
    (first : Writes .access t function) (second : WritesArguments false u arguments keywords) :
    Writes .access (t ++ "(" ++ u ++ ")") (.call function arguments keywords) := by
  obtain ⟨xs, writing, derives⟩ := first
  obtain ⟨ys, writing', derives'⟩ := second
  refine ⟨_, ?_, .call derives derives'⟩
  simp only [List.append_assoc]
  exact writing.append (parts_symbol (s := .openParen) (by decide) _) (writing'.symbol (s := .openParen) (by decide))

end Stencil
