import Stencil.Proofs.Expr.Grammar

/-!
# The parser reads the grammar

Whatever the grammar derives, the parser reads (`Derives.resumes`), so that a source has the tree that its lexemes
derive (`Expr.parse_of_derives`). The parser reads the left operand of an operator before it knows of the operator. So
while the left operand is derived, the parser gets into the state in which it looks for operators (`resume`), with
enough steps left.
-/

namespace Stencil

theorem Lexeme.lexeme_eq_symbol {t : Token} {s : Symbol} : t.lexeme = .symbol s ↔ t.kind = .symbol s := by
  unfold Token.lexeme
  cases t.kind <;> simp

theorem Lexeme.lexeme_eq_keyword {t : Token} {k : Keyword} : t.lexeme = .keyword k ↔ t.kind = .keyword k := by
  unfold Token.lexeme
  cases t.kind <;> simp

/-- The kind of a token with the lexeme. -/
def Lexeme.kind : Lexeme → TokenKind
  | endOfInput => .endOfInput
  | word _ => .name
  | integer _ => .integer
  | decimal _ => .decimal
  | string _ => .string
  | keyword k => .keyword k
  | symbol s => .symbol s

theorem Token.kind_lexeme (t : Token) : t.lexeme.kind = t.kind := by
  unfold lexeme
  cases t.kind <;> rfl

/-- The text of the lexemes that carry one. -/
def Lexeme.text : Lexeme → Text
  | word t | integer t | decimal t | string t => t
  | _ => []

theorem Token.text_of_lexeme {t : Token} {x : Lexeme} (h : t.lexeme = x)
    (carries : x.kind ∈ [TokenKind.name, .integer, .decimal, .string]) : t.text = x.text := by
  subst h
  rw [kind_lexeme] at carries
  unfold lexeme
  cases kind : t.kind <;> first | rfl | simp [kind] at carries

theorem Lexeme.keyword_eq_kind {x : Lexeme} {k : Keyword} : .keyword k = x.kind ↔ x = .keyword k := by
  cases x <;> simp [kind, eq_comm]

theorem Lexeme.symbol_eq_kind {x : Lexeme} {s : Symbol} : .symbol s = x.kind ↔ x = .symbol s := by
  cases x <;> simp [kind, eq_comm]

/-- What a lexeme opens and extends is known from its kind. -/
theorem Lexeme.of_kind {x y : Lexeme} (h : x.kind = y.kind) : x.opens? = y.opens? ∧ x.extends? = y.extends? := by
  cases x <;> cases y <;> cases h <;> exact ⟨rfl, rfl⟩

theorem Stops.kind_ne {level l : Level} {rest : List Lexeme} (h : Stops level rest) {x : Lexeme}
    (goesOn : x.extends? = some l) (tight : level.rank ≤ l.rank) : ∀ y ∈ rest.head?, y.kind ≠ x.kind := by
  intro y ahead same
  have lower := h y ahead l ((Lexeme.of_kind same).2.trans goesOn)
  omega

/-- A lexeme that starts no expression of the level is not ahead where one starts. -/
theorem Lexeme.Opens.kind_ne {level : Level} {xs : List Lexeme} (starts : ∃ y ys, xs = y :: ys ∧ y.Opens level) {x : Lexeme}
    (loose : ∀ l ∈ x.opens?, l.rank < level.rank) (rest : List Lexeme) : ∀ y ∈ (xs ++ rest).head?, y.kind ≠ x.kind := by
  obtain ⟨y, ys, rfl, l, opens, tight⟩ := starts
  rintro _ ⟨⟩ same
  have lower := loose l ((Lexeme.of_kind same).1.symm.trans opens)
  omega

theorem Derives.kind_ne {level : Level} {xs : List Lexeme} {e : Expr} (h : Derives level xs e) {x : Lexeme}
    (loose : ∀ l ∈ x.opens?, l.rank < level.rank) (rest : List Lexeme) : ∀ y ∈ (xs ++ rest).head?, y.kind ≠ x.kind :=
  Lexeme.Opens.kind_ne h.starts loose rest

theorem Derives.length_pos {level : Level} {xs : List Lexeme} {e : Expr} (h : Derives level xs e) : 0 < xs.length := by
  obtain ⟨x, ys, rfl, -⟩ := h.starts
  exact Nat.succ_pos _

theorem DerivesMore.starts {keywordSeen : Bool} {xs : List Lexeme} {arguments : List Expr} {keywords : List (Text × Expr)}
    (h : DerivesMore keywordSeen xs arguments keywords) :
    ∃ s ys, xs = .symbol s :: ys ∧ (s = .closeParen ∨ s = .comma) := by
  cases h with
  | close => exact ⟨_, _, rfl, .inl rfl⟩
  | comma h => exact ⟨_, _, rfl, .inr rfl⟩

/-- No expression goes on where the arguments of a call do. -/
theorem DerivesMore.ends {keywordSeen : Bool} {xs : List Lexeme} {arguments : List Expr} {keywords : List (Text × Expr)}
    (h : DerivesMore keywordSeen xs arguments keywords) (rest : List Lexeme) :
    0 < xs.length ∧ Stops .conditional (xs ++ rest) ∧ (xs ++ rest).head? ≠ some (.symbol .assign) := by
  obtain ⟨s, ys, rfl, rfl | rfl⟩ := h.starts <;>
    exact ⟨Nat.succ_pos _, stops_of_none rfl _, by simp⟩

/-- The level that a part of an expression is read to the end of, where the part is itself one of the level. -/
def Level.inner : Level → Level
  | .conditional => .conditional
  | .negation => .negation
  | .sign => .sign
  | level => level.operand

theorem Level.inner_operator (op : Operator) : op.level.inner = op.level.operand := by cases op <;> rfl

theorem Level.inner_le (level : Level) : level.rank ≤ level.inner.rank ∧ level.rank < 10 := by cases level <;> decide

theorem Level.rank_operand {level : Level} (h : level ≠ .atom) : level.operand.rank = level.rank + 1 := by
  cases level <;> first | rfl | exact absurd rfl h

/-- A level is that of an operator, or read by a case of its own. -/
theorem Level.cases_operator (level : Level) :
    (∃ op : Operator, level = op.level) ∨ level ∈ [Level.conditional, .negation, .sign, .access, .atom] := by
  cases level with
  | disjunction => exact .inl ⟨.or, rfl⟩
  | conjunction => exact .inl ⟨.and, rfl⟩
  | comparison => exact .inl ⟨.equal, rfl⟩
  | sum => exact .inl ⟨.add, rfl⟩
  | product => exact .inl ⟨.multiply, rfl⟩
  | _ => exact .inr (by decide)

namespace Expr.Parse

variable {α β : Type} {p : Parse α} {f : α → Parse β} {xs ys zs : List Lexeme} {Q : α → Prop}
  {R : Except SyntaxError (β × List Token) → Prop}

/-- From the lexemes, reading ends with an outcome that has the property. -/
def Leads (p : Parse α) (xs : List Lexeme) (R : Except SyntaxError (α × List Token) → Prop) : Prop :=
  ∀ ts, ts.map Token.lexeme = xs → R (p ts)

/-- From the first lexemes, a result with the property is read, and the second ones are left. -/
def Reads (p : Parse α) (xs : List Lexeme) (Q : α → Prop) (ys : List Lexeme) : Prop :=
  Leads p xs fun r => ∃ a us, r = .ok (a, us) ∧ Q a ∧ us.map Token.lexeme = ys

theorem reads_pure {a : α} (h : Q a) : Reads (pure a) xs Q xs := fun ts same => ⟨a, ts, rfl, h, same⟩

theorem Reads.bind (h : Reads p xs Q ys) (next : ∀ a, Q a → Leads (f a) ys R) : Leads (p >>= f) xs R := by
  intro ts same
  obtain ⟨a, us, read, value, left⟩ := h ts same
  change R ((p ts).bind fun r => f r.1 r.2)
  rw [read]
  exact next a value us left

/-- The token ahead has the lexeme ahead. -/
theorem kind_ahead {ts : List Token} (same : ts.map Token.lexeme = xs) :
    (ahead ts).kind = (xs.head?.map Lexeme.kind).getD .endOfInput := by
  cases ts with
  | nil =>
    subst same
    rfl
  | cons t ts =>
    subst same
    exact t.kind_lexeme.symm

theorem reads_accept {x : Lexeme} {k : TokenKind} (h : x.kind = k) (some : k ≠ .endOfInput)
    (xs : List Lexeme) : Reads (accept k) (x :: xs) (· = true) xs := by
  intro ts same
  have ahead := kind_ahead same
  obtain ⟨t, us, rfl, -, left⟩ := List.map_eq_cons_iff.1 same
  have kind : t.kind = k := ahead.trans h
  refine ⟨true, us, ?_, rfl, left⟩
  simp [accept, Parse.ahead, kind, some]

theorem reads_refuse {k : TokenKind} (some : k ≠ .endOfInput) (h : ∀ x ∈ xs.head?, x.kind ≠ k) :
    Reads (accept k) xs (· = false) xs := by
  intro ts same
  have other : (ahead ts).kind ≠ k := by
    rw [kind_ahead same]
    cases head : xs.head? with
    | none => exact some.symm
    | some x => exact h x head
  exact ⟨false, ts, by simp [accept, other], rfl, same⟩

theorem reads_advance {x : Lexeme} (h : x ≠ .endOfInput) (xs : List Lexeme) :
    Reads advance (x :: xs) (·.lexeme = x) xs := by
  intro ts same
  obtain ⟨t, us, rfl, known, left⟩ := List.map_eq_cons_iff.1 same
  have goesOn : t.kind ≠ .endOfInput := by
    intro ended
    exact h (by rw [← known, Token.lexeme, ended])
  refine ⟨t, us, ?_, known, left⟩
  simp [advance, Parse.ahead, goesOn]

theorem reads_expect {source : Text} {x : Lexeme} {k : TokenKind} (h : x.kind = k) (some : k ≠ .endOfInput)
    (xs : List Lexeme) : Reads (expect source k) (x :: xs) (·.lexeme = x) xs := by
  have peek : Reads peek (x :: xs) (·.kind = k) (x :: xs) := fun ts same =>
    ⟨ahead ts, ts, rfl, (kind_ahead same).trans h, same⟩
  refine peek.bind fun t same => ?_
  rw [if_pos same]
  exact reads_advance (by rintro rfl; exact some h.symm) xs

theorem text_of_strings {ts : List Text} {as : List Token} (strings : as.map Token.lexeme = ts.map .string) :
    as.flatMap (·.text) = ts.flatten := by
  induction ts generalizing as with
  | nil =>
    rw [List.map_nil, List.map_eq_nil_iff] at strings
    rw [strings]
    rfl
  | cons t ts ih =>
    obtain ⟨a, as, rfl, known, strings⟩ := List.map_eq_cons_iff.1 strings
    have text : a.text = t := Token.text_of_lexeme known (by simp [Lexeme.kind])
    rw [List.flatMap_cons, ih strings, text, List.flatten_cons]

theorem reads_adjacentStrings (ts : List Text) {rest : List Lexeme} (h : ∀ x ∈ rest.head?, x.kind ≠ .string) :
    Reads adjacentStrings (ts.map .string ++ rest) (· = ts.flatten) rest := by
  intro us same
  obtain ⟨as, bs, rfl, strings, left⟩ := List.map_eq_append_iff.1 same
  have all : ∀ a ∈ as, decide (a.kind = .string) = true := by
    intro a ha
    have mem := List.mem_map_of_mem (f := Token.lexeme) ha
    rw [strings] at mem
    obtain ⟨t, -, same⟩ := List.mem_map.1 mem
    rw [← Token.kind_lexeme, ← same]
    rfl
  have other : ∀ b ∈ bs.head?, decide (b.kind = .string) = false := by
    intro b hb
    have ahead : b.lexeme ∈ rest.head? := by
      rw [← left, List.head?_map]
      exact Option.mem_map_of_mem _ hb
    rw [decide_eq_false_iff_not, ← Token.kind_lexeme]
    exact h _ ahead
  refine ⟨_, bs, ?_, rfl, left⟩
  simp only [adjacentStrings, Token.takeWhile_of_ends all other, Token.dropWhile_of_ends all other, text_of_strings strings]

/-- Where the lexeme is ahead that is looked for, the first branch is taken. -/
theorem Leads.accepts {x : Lexeme} {k : TokenKind} {p q : Parse β} (h : x.kind = k) (some : k ≠ .endOfInput)
    (next : Leads p xs R) : Leads (accept k >>= fun found => if found = true then p else q) (x :: xs) R :=
  (reads_accept h some xs).bind fun _ found => by rwa [if_pos found]

/-- Where another one is ahead, the second branch is taken. -/
theorem Leads.refuses {k : TokenKind} {p q : Parse β} (h : ∀ x ∈ xs.head?, x.kind ≠ k) (some : k ≠ .endOfInput)
    (next : Leads q xs R) : Leads (accept k >>= fun found => if found = true then p else q) xs R :=
  (reads_refuse some h).bind fun _ found => by rwa [found, if_neg Bool.false_ne_true]

theorem assigned_iff {ts : List Token} (same : ts.map Token.lexeme = xs) :
    ((ahead ts).kind = .name ∧ afterNext ts = .symbol .assign) ↔ ∃ n ys, xs = .word n :: .symbol .assign :: ys := by
  subst same
  constructor
  · rintro ⟨name, assign⟩
    match ts, name, assign with
    | [t], name, assign => cases name.symm.trans assign
    | t :: u :: ts, name, assign =>
      refine ⟨t.text, ts.map Token.lexeme, ?_⟩
      rw [List.map_cons, List.map_cons, Lexeme.lexeme_eq_symbol.2 assign]
      congr 1
      rw [Token.lexeme, show t.kind = .name from name]
  · rintro ⟨n, ys, same⟩
    obtain ⟨t, ts, rfl, name, same⟩ := List.map_eq_cons_iff.1 same
    obtain ⟨u, ts, rfl, assign, -⟩ := List.map_eq_cons_iff.1 same
    exact ⟨by rw [← Token.kind_lexeme, show (ahead (t :: u :: ts)).lexeme = _ from name]; rfl, Lexeme.lexeme_eq_symbol.1 assign⟩

theorem Leads.looks {f : List Token → Parse β} (h : ∀ ts, ts.map Token.lexeme = xs → Leads (f ts) xs R) :
    Leads (get >>= f) xs R := fun ts same => h ts same ts same

/-- What reads an expression reads what is read after it. -/
theorem Reads.resumed {p : Parse Expr} {e : Expr} {R : Except SyntaxError (Expr × List Token) → Prop}
    (h : Reads p xs (· = e) ys) (next : Leads (pure e) ys R) : Leads p xs R := by
  rw [← bind_pure p]
  exact h.bind fun a same => same ▸ next

/-! ## Operators -/

theorem kinds_of_lexemes {ts : List Token} (same : ts.map Token.lexeme = xs) : ts.map (·.kind) = xs.map Lexeme.kind := by
  rw [← same, List.map_map]
  exact List.map_congr_left fun t _ => t.kind_lexeme.symm

theorem kind_lexemes (op : Operator) : op.lexemes.map Lexeme.kind = op.tokens := by cases op <;> rfl

theorem reads_operator (op : Operator) {rest : List Lexeme} (h : op = .is → ∀ x ∈ rest.head?, x.kind ≠ .keyword .not) :
    Reads (operator? op.level) (op.lexemes ++ rest) (· = some op) rest := by
  intro ts same
  have kinds : ts.map (·.kind) = op.tokens ++ rest.map Lexeme.kind := by
    rw [kinds_of_lexemes same, List.map_append, kind_lexemes]
  have found : (Operator.all.find? fun o => o.level = op.level && o.tokens.isPrefixOf (op.tokens ++ rest.map Lexeme.kind))
      = some op := by
    cases op with
    | is =>
      cases rest with
      | nil => rfl
      | cons x rest =>
        have other : (TokenKind.keyword .not == x.kind) = false := beq_eq_false_iff_ne.2 (h rfl x rfl).symm
        simp [Operator.all, Operator.level, Operator.tokens, List.isPrefixOf, other]
    | _ => rfl
  have left : (ts.drop op.tokens.length).map Token.lexeme = rest := by
    have length : op.lexemes.length = op.tokens.length := List.length_map _
    rw [List.map_drop, same, ← length, List.drop_left]
  exact ⟨some op, ts.drop op.tokens.length, by simp only [operator?, kinds, found], rfl, left⟩

/-- An operator goes on an expression at its level. -/
theorem extends_of_tokens {op : Operator} {x : Lexeme} {xs : List Lexeme}
    (h : op.tokens.isPrefixOf ((x :: xs).map Lexeme.kind) = true) : x.extends? = some op.level := by
  cases op <;> simp only [Operator.tokens, List.map_cons, List.isPrefixOf, Bool.and_eq_true, beq_iff_eq,
    Lexeme.keyword_eq_kind, Lexeme.symbol_eq_kind] at h <;> rw [h.1] <;> rfl

theorem reads_noOperator {level : Level} {rest : List Lexeme} (h : Stops level rest) :
    Reads (operator? level) rest (· = none) rest := by
  intro ts same
  have kinds : ts.map (·.kind) = rest.map Lexeme.kind := kinds_of_lexemes same
  have missing : (Operator.all.find? fun o => o.level = level && o.tokens.isPrefixOf (rest.map Lexeme.kind)) = none := by
    rw [List.find?_eq_none]
    intro op _ found
    obtain ⟨level, starts⟩ := Bool.and_eq_true_iff.1 found
    cases rest with
    | nil => cases op <;> cases starts
    | cons x rest =>
      have lower := h x rfl _ (extends_of_tokens starts)
      rw [of_decide_eq_true level] at lower
      exact Nat.lt_irrefl _ lower
  exact ⟨none, ts, by simp only [operator?, kinds, missing], rfl, same⟩

end Expr.Parse

namespace Expr

open Parse

variable {source : Text} {level : Level} {xs ys : List Lexeme} {e : Expr}

/-- Reading on after a part of an expression of the level that is itself one of the level. -/
def resume (source : Text) (n : Nat) : Level → Expr → Parse Expr
  | .access, e => readAccesses source n e
  | .conditional, e | .negation, e | .sign, e | .atom, e => pure e
  | level, e => readOperators source n level e

/-- The parser takes the lexemes for the expression, and goes on from there. It needs at most sixteen steps for each
lexeme, and has spent at most one of them for each lexeme afterwards. -/
def Resumes (source : Text) (level : Level) (xs : List Lexeme) (e : Expr) : Prop :=
  ∀ n rest, 16 * xs.length ≤ n + level.rank → Stops level.inner rest → ∃ m, n ≤ m + xs.length ∧
    ∀ R, Leads (resume source m level e) rest R → Leads (readAt source n level) (xs ++ rest) R

theorem readAt_operator (op : Operator) (n : Nat) : readAt source (n + 1) op.level =
    readAt source n op.level.operand >>= readOperators source n op.level := by
  cases op <;> rfl

theorem resume_operator (op : Operator) (n : Nat) (e : Expr) :
    resume source n op.level e = readOperators source n op.level e := by
  cases op <;> rfl

theorem reads_operators {n : Nat} {rest : List Lexeme} (h : Stops level rest) :
    Reads (readOperators source (n + 1) level e) rest (· = e) rest := by
  rw [readOperators]
  exact (reads_noOperator h).bind fun _ none => none ▸ reads_pure rfl

theorem reads_accesses {n : Nat} {rest : List Lexeme} (h : Stops .access rest) :
    Reads (readAccesses source (n + 1) e) rest (· = e) rest := by
  rw [readAccesses]
  exact .refuses (h.kind_ne (x := .symbol .dot) rfl (Nat.le_refl _)) (by decide) <|
    .refuses (h.kind_ne (x := .symbol .openBracket) rfl (Nat.le_refl _)) (by decide) <|
    .refuses (h.kind_ne (x := .symbol .openParen) rfl (Nat.le_refl _)) (by decide) <| reads_pure rfl

/-- Where nothing goes on the expression, reading on ends with it. -/
theorem reads_resume {n : Nat} {rest : List Lexeme} (h : Stops level rest) :
    Reads (resume source (n + 1) level e) rest (· = e) rest := by
  cases level with
  | access => exact reads_accesses h
  | conditional | negation | sign | atom => exact reads_pure rfl
  | _ => exact reads_operators h

theorem Resumes.reads (h : Resumes source level xs e) (some : Derives level xs e) {n : Nat} {rest : List Lexeme}
    (enough : 16 * xs.length ≤ n + level.rank) (stops : Stops level rest) :
    Reads (readAt source n level) (xs ++ rest) (· = e) rest := by
  have length := some.length_pos
  obtain ⟨inner, low⟩ := Level.inner_le level
  obtain ⟨m, left, read⟩ := h n rest enough (stops.mono inner)
  obtain ⟨m, rfl⟩ : ∃ k, m = k + 1 := ⟨m - 1, by omega⟩
  exact read _ (reads_resume stops)

/-- Some step is left for the first lexeme. -/
theorem resumes_of_succ (some : 0 < xs.length) (read : ∀ n rest, 16 * xs.length ≤ n + 1 + level.rank →
    Stops level.inner rest → ∃ m, n + 1 ≤ m + xs.length ∧ ∀ R, Leads (resume source m level e) rest R →
      Leads (readAt source (n + 1) level) (xs ++ rest) R) : Resumes source level xs e := by
  intro n rest enough stops
  have low := (Level.inner_le level).2
  obtain ⟨n, rfl⟩ : ∃ k, n = k + 1 := ⟨n - 1, by omega⟩
  exact read n rest enough stops

/-- Where an expression is read as a whole, nothing is left to read on. -/
theorem resumes_of_reads (whole : level.inner = level) (some : 0 < xs.length) (read : ∀ n rest,
    16 * xs.length ≤ n + 1 + level.rank → Stops level rest → Reads (readAt source (n + 1) level) (xs ++ rest) (· = e) rest) :
    Resumes source level xs e := by
  have pure (n : Nat) : resume source n level e = pure e := by
    cases level <;> first | rfl | cases whole
  refine resumes_of_succ some fun n rest enough stops => ⟨n + 1, Nat.le_add_right _ _, fun R next => ?_⟩
  exact (read n rest enough (whole ▸ stops)).resumed (pure (n + 1) ▸ next)

/-! ## One rule at a time -/

theorem Resumes.tighter (h : Resumes source level.operand xs e) (some : Derives level.operand xs e)
    (loose : level ≠ .atom) : Resumes source level xs e := by
  have length := some.length_pos
  have rank := Level.rank_operand loose
  obtain ⟨op, rfl⟩ | case := Level.cases_operator level
  · refine resumes_of_succ length fun n rest enough stops => ⟨n, by omega, fun R next => ?_⟩
    rw [Level.inner_operator] at stops
    rw [resume_operator] at next
    rw [readAt_operator]
    exact (h.reads some (by omega) stops).bind fun _ same => same ▸ next
  · simp only [List.mem_cons, List.not_mem_nil, or_false] at case
    -- the levels without operators, from the loosest one to atoms
    obtain rfl | rfl | rfl | rfl | rfl := case
    · refine resumes_of_reads rfl length fun n rest enough stops => ?_
      rw [readAt]
      refine (h.reads some (by omega) (stops.mono (by decide))).bind fun _ same => same ▸ ?_
      exact .refuses (stops.kind_ne (x := .keyword .if) rfl (Nat.le_refl _)) (by decide) (reads_pure rfl)
    · refine resumes_of_reads rfl length fun n rest enough stops => ?_
      rw [readAt]
      exact .refuses (some.kind_ne (x := .keyword .not) (by rintro _ ⟨⟩; decide) rest) (by decide)
        (h.reads some (by omega) (stops.mono (by decide)))
    · refine resumes_of_reads rfl length fun n rest enough stops => ?_
      rw [readAt]
      exact .refuses (some.kind_ne (x := .symbol .minus) (by rintro _ ⟨⟩; decide) rest) (by decide) <|
        .refuses (some.kind_ne (x := .symbol .plus) (by rintro _ ⟨⟩; decide) rest) (by decide)
        (h.reads some (by omega) (stops.mono (by decide)))
    · refine resumes_of_succ length fun n rest enough stops => ⟨n, by omega, fun R next => ?_⟩
      rw [readAt]
      exact (h.reads some (by omega) stops).bind fun _ same => same ▸ next
    · exact absurd rfl loose

theorem resumes_conditional {zs : List Lexeme} {value test other : Expr} (first : Derives .disjunction xs value)
    (second : Derives .disjunction ys test) (third : Derives .conditional zs other)
    (readFirst : Resumes source .disjunction xs value) (readSecond : Resumes source .disjunction ys test)
    (readThird : Resumes source .conditional zs other) :
    Resumes source .conditional (xs ++ .keyword .if :: (ys ++ .keyword .else :: zs)) (.conditional test value other) := by
  have length : 0 < (xs ++ Lexeme.keyword .if :: (ys ++ Lexeme.keyword .else :: zs)).length := by
    rw [List.length_append]
    exact Nat.add_pos_left first.length_pos _
  refine resumes_of_reads rfl length fun n rest enough stops => ?_
  simp only [List.length_append, List.length_cons, Level.rank] at enough
  rw [readAt]
  simp only [List.append_assoc, List.cons_append]
  refine (readFirst.reads first (by omega) (by rintro _ ⟨⟩ _ ⟨⟩; decide)).bind fun _ same => same ▸ ?_
  refine .accepts (x := .keyword .if) rfl (by decide) ?_
  refine (readSecond.reads second (by omega) (stops_of_none rfl _)).bind fun _ same => same ▸ ?_
  refine (reads_expect (x := .keyword .else) rfl (by decide) _).bind fun _ _ => ?_
  exact (readThird.reads third (by simp only [Level.rank]; omega) stops).bind fun _ same => same ▸ reads_pure rfl

/-- An operator before an operand of the same level. -/
theorem resumes_unary {op : UnaryOperator} {x : Lexeme} (whole : level.inner = level) (h : Derives level xs e)
    (read : Resumes source level xs e) (takes : ∀ n ys zs,
      Reads (readAt source n level >>= fun operand => pure (unary op operand)) ys (· = unary op e) zs →
        Reads (readAt source (n + 1) level) (x :: ys) (· = unary op e) zs) :
    Resumes source level (x :: xs) (.unary op e) := by
  refine resumes_of_reads whole (by simp) fun n rest enough stops => ?_
  rw [List.length_cons] at enough
  refine takes n (xs ++ rest) rest ?_
  exact (read.reads h (by omega) stops).bind fun _ same => same ▸ reads_pure rfl

theorem resumes_not (h : Derives .negation xs e) (read : Resumes source .negation xs e) :
    Resumes source .negation (.keyword .not :: xs) (.unary .not e) :=
  resumes_unary rfl h read fun n ys zs next => by
    rw [readAt]
    exact .accepts (x := .keyword .not) rfl (by decide) next

theorem resumes_negate (h : Derives .sign xs e) (read : Resumes source .sign xs e) :
    Resumes source .sign (.symbol .minus :: xs) (.unary .negate e) :=
  resumes_unary rfl h read fun n ys zs next => by
    rw [readAt]
    exact .accepts (x := .symbol .minus) rfl (by decide) next

theorem resumes_identity (h : Derives .sign xs e) (read : Resumes source .sign xs e) :
    Resumes source .sign (.symbol .plus :: xs) (.unary .identity e) :=
  resumes_unary rfl h read fun n ys zs next => by
    rw [readAt]
    refine .refuses (k := .symbol .minus) (by rintro _ ⟨⟩; decide) (by decide) ?_
    exact .accepts (x := .symbol .plus) rfl (by decide) next

theorem resumes_binary {op : Operator} {left right : Expr} (first : Derives op.level xs left)
    (second : Derives op.level.operand ys right) (readFirst : Resumes source op.level xs left)
    (readSecond : Resumes source op.level.operand ys right) :
    Resumes source op.level (xs ++ (op.lexemes ++ ys)) (.binary op left right) := by
  intro n rest enough stops
  have written : 0 < op.lexemes.length := by cases op <;> decide
  have low := (Level.inner_le op.level).2
  have rank : op.level.operand.rank = op.level.rank + 1 := Level.rank_operand (by cases op <;> decide)
  have length := first.length_pos
  have other := second.length_pos
  simp only [List.length_append] at enough ⊢
  obtain ⟨m, left, read⟩ := readFirst n (op.lexemes ++ (ys ++ rest)) (by omega)
    (Level.inner_operator op ▸ stops_operator op _)
  obtain ⟨m, rfl⟩ : ∃ k, m = k + 1 := ⟨m - 1, by omega⟩
  refine ⟨m, by omega, fun R next => ?_⟩
  rw [List.append_assoc, List.append_assoc]
  refine read R ?_
  rw [resume_operator] at next ⊢
  rw [Level.inner_operator] at stops
  rw [readOperators]
  have unnegated : op = .is → ∀ x ∈ (ys ++ rest).head?, x.kind ≠ .keyword .not := by
    rintro rfl
    exact second.kind_ne (x := .keyword .not) (by rintro _ ⟨⟩; decide) rest
  refine (reads_operator op unnegated).bind fun _ same => same ▸ ?_
  exact (readSecond.reads second (by omega) stops).bind fun _ same => same ▸ next

/-- What goes on an object is read after the object. -/
theorem resumes_access {object e : Expr} {x : Lexeme} (first : Derives .access xs object)
    (readFirst : Resumes source .access xs object) (goesOn : x.extends? = some .access)
    (read : ∀ n rest, 16 * (ys.length + 1) ≤ n + 10 → Stops .atom rest → ∃ m, n ≤ m + ys.length ∧
      ∀ R, Leads (readAccesses source m e) rest R → Leads (readAccesses source (n + 1) object) (x :: (ys ++ rest)) R) :
    Resumes source .access (xs ++ x :: ys) e := by
  intro n rest enough stops
  have length := first.length_pos
  simp only [List.length_append, List.length_cons] at enough ⊢
  have next : Stops Level.access.inner (x :: (ys ++ rest)) := by
    rintro _ ⟨⟩ l hl
    rw [goesOn] at hl
    cases hl
    decide
  obtain ⟨m, left, resumed⟩ := readFirst n _ (by omega) next
  obtain ⟨m, rfl⟩ : ∃ k, m = k + 1 := ⟨m - 1, by simp only [Level.rank] at enough; omega⟩
  obtain ⟨k, spent, goes⟩ := read m rest (by simp only [Level.rank] at enough; omega) stops
  refine ⟨k, by omega, fun R next => ?_⟩
  rw [List.append_assoc, List.cons_append]
  exact resumed R (goes R next)

theorem resumes_member {object : Expr} (name : Text) (first : Derives .access xs object)
    (readFirst : Resumes source .access xs object) :
    Resumes source .access (xs ++ [.symbol .dot, .word name]) (.member object name) := by
  refine resumes_access first readFirst rfl fun n rest enough stops => ⟨n, Nat.le_add_right _ _, fun R next => ?_⟩
  rw [readAccesses]
  refine .accepts (x := .symbol .dot) rfl (by decide) ?_
  refine (reads_expect (x := .word name) (k := .name) rfl (by decide) _).bind fun t known => ?_
  rwa [Token.text_of_lexeme known (by simp [Lexeme.kind])]

theorem resumes_item {object key : Expr} (first : Derives .access xs object) (second : Derives .conditional ys key)
    (readFirst : Resumes source .access xs object) (readSecond : Resumes source .conditional ys key) :
    Resumes source .access (xs ++ .symbol .openBracket :: (ys ++ [.symbol .closeBracket])) (.item object key) := by
  refine resumes_access first readFirst rfl fun n rest enough stops => ⟨n, Nat.le_add_right _ _, fun R next => ?_⟩
  simp only [List.length_append, List.length_cons] at enough
  rw [readAccesses, List.append_assoc]
  refine .refuses (k := .symbol .dot) (by rintro _ ⟨⟩; decide) (by decide) ?_
  refine .accepts (x := .symbol .openBracket) rfl (by decide) ?_
  refine (readSecond.reads second (by omega) (stops_of_none rfl _)).bind fun _ same => same ▸ ?_
  exact (reads_expect (x := .symbol .closeBracket) rfl (by decide) _).bind fun _ _ => next

theorem resumes_call {function : Expr} {arguments : List Expr} {keywords : List (Text × Expr)}
    (first : Derives .access xs function) (readFirst : Resumes source .access xs function)
    (readSecond : ∀ n rest, 16 * ys.length ≤ n + 10 →
      Reads (readArguments source n false) (ys ++ rest) (· = (arguments, keywords)) rest) :
    Resumes source .access (xs ++ .symbol .openParen :: ys) (.call function arguments keywords) := by
  refine resumes_access first readFirst rfl fun n rest enough stops => ⟨n, Nat.le_add_right _ _, fun R next => ?_⟩
  rw [readAccesses]
  refine .refuses (k := .symbol .dot) (by rintro _ ⟨⟩; decide) (by decide) ?_
  refine .refuses (k := .symbol .openBracket) (by rintro _ ⟨⟩; decide) (by decide) ?_
  refine .accepts (x := .symbol .openParen) rfl (by decide) ?_
  exact (readSecond n rest (by omega)).bind fun _ same => same ▸ next

/-- An atom starts with a token that says what is to be read after it. -/
theorem resumes_atom {x : Lexeme} (some : x ≠ .endOfInput) (read : ∀ n t rest, t.lexeme = x →
    16 * (ys.length + 1) ≤ n + 11 → Stops .atom rest → Reads (readAtom source (n + 1) t) (ys ++ rest) (· = e) rest) :
    Resumes source .atom (x :: ys) e := by
  refine resumes_of_reads rfl (by simp) fun n rest enough stops => ?_
  simp only [List.length_cons, Level.rank] at enough
  obtain ⟨n, rfl⟩ : ∃ k, n = k + 1 := ⟨n - 1, by omega⟩
  rw [readAt]
  exact (reads_advance some _).bind fun t known => read n t rest known (by omega) stops

theorem kind_of_lexeme {t : Token} {x : Lexeme} (h : t.lexeme = x) : t.kind = x.kind := by rw [← h, t.kind_lexeme]

theorem resumes_name (n : Text) : Resumes source .atom [.word n] (.name n) :=
  resumes_atom (by simp) fun k t rest known _ _ => by
    have text := Token.text_of_lexeme known (by simp [Lexeme.kind])
    rw [readAtom, kind_of_lexeme known, text]
    exact reads_pure rfl

theorem resumes_constant {k : Keyword} {l : Literal}
    (h : (k, l) ∈ [(Keyword.none, Literal.none), (.true, .bool true), (.false, .bool false)]) :
    Resumes source .atom [.keyword k] (.literal l) :=
  resumes_atom (by simp) fun n t rest known _ _ => by
    rw [readAtom, kind_of_lexeme known]
    simp only [List.mem_cons, Prod.mk.injEq, List.not_mem_nil, or_false] at h
    obtain ⟨rfl, rfl⟩ | ⟨rfl, rfl⟩ | ⟨rfl, rfl⟩ := h <;> exact reads_pure rfl

theorem resumes_text (t : Text) (ts : List Text) :
    Resumes source .atom (.string t :: ts.map .string) (.literal (.text (t ++ ts.flatten))) :=
  resumes_atom (by simp) fun n first rest known _ stops => by
    have text := Token.text_of_lexeme known (by simp [Lexeme.kind])
    rw [readAtom, kind_of_lexeme known, text]
    exact (reads_adjacentStrings ts (stops.kind_ne (x := .string []) rfl (Nat.le_refl _))).bind
      fun _ same => same ▸ reads_pure rfl

theorem resumes_integer {digits : Text} {k : Int64} (h : Text.toInt64? digits = some k) :
    Resumes source .atom [.integer digits] (.literal (.int k)) :=
  resumes_atom (by simp) fun n t rest known _ _ => by
    have text := Token.text_of_lexeme known (by simp [Lexeme.kind])
    rw [readAtom, kind_of_lexeme known, text]
    simp only [Lexeme.kind, Lexeme.text, h]
    exact reads_pure rfl

theorem resumes_decimal {digits : Text} {x : Float} (h : Binary64.ofText? digits = some x) :
    Resumes source .atom [.decimal digits] (.literal (.float x)) :=
  resumes_atom (by simp) fun n t rest known _ _ => by
    have text := Token.text_of_lexeme known (by simp [Lexeme.kind])
    rw [readAtom, kind_of_lexeme known, text]
    simp only [Lexeme.kind, Lexeme.text, h]
    exact reads_pure rfl

theorem resumes_parenthesised (h : Derives .conditional xs e) (read : Resumes source .conditional xs e) :
    Resumes source .atom (.symbol .openParen :: (xs ++ [.symbol .closeParen])) e :=
  resumes_atom (by simp) fun n t rest known enough _ => by
    simp only [List.length_append, List.length_cons] at enough
    rw [readAtom, kind_of_lexeme known, List.append_assoc]
    refine .refuses (h.kind_ne (x := .symbol .closeParen) (by rintro _ ⟨⟩) _) (by decide) ?_
    refine (read.reads h (by omega) (stops_of_none rfl _)).bind fun _ same => same ▸ ?_
    exact .accepts (x := .symbol .closeParen) rfl (by decide) (reads_pure rfl)

theorem resumes_unit : Resumes source .atom [.symbol .openParen, .symbol .closeParen] (.list []) :=
  resumes_atom (by simp) fun n t rest known _ _ => by
    rw [readAtom, kind_of_lexeme known]
    exact .accepts (x := .symbol .closeParen) rfl (by decide) (reads_pure rfl)

/-- The parser takes the lexemes for the elements of a display. -/
def ReadsElements (source : Text) (close : Symbol) (xs : List Lexeme) (es : List Expr) : Prop :=
  ∀ n rest, 16 * xs.length ≤ n + 10 → Reads (readElements source n close) (xs ++ rest) (· = es) rest

theorem resumes_tuple {es : List Expr} (first : Derives .conditional xs e) (readFirst : Resumes source .conditional xs e)
    (readOthers : ReadsElements source .closeParen ys es) :
    Resumes source .atom (.symbol .openParen :: (xs ++ .symbol .comma :: ys)) (.list (e :: es)) :=
  resumes_atom (by simp) fun n t rest known enough _ => by
    simp only [List.length_append, List.length_cons] at enough
    rw [readAtom, kind_of_lexeme known, List.append_assoc]
    refine .refuses (first.kind_ne (x := .symbol .closeParen) (by rintro _ ⟨⟩) _) (by decide) ?_
    refine (readFirst.reads first (by omega) (stops_of_none rfl _)).bind fun _ same => same ▸ ?_
    refine .refuses (k := .symbol .closeParen) (by rintro _ ⟨⟩; decide) (by decide) ?_
    refine (reads_expect (x := .symbol .comma) rfl (by decide) _).bind fun _ _ => ?_
    exact (readOthers n rest (by omega)).bind fun _ same => same ▸ reads_pure rfl

theorem resumes_list {es : List Expr} (read : ReadsElements source .closeBracket xs es) :
    Resumes source .atom (.symbol .openBracket :: xs) (.list es) :=
  resumes_atom (by simp) fun n t rest known enough _ => by
    rw [readAtom, kind_of_lexeme known]
    exact (read n rest (by omega)).bind fun _ same => same ▸ reads_pure rfl

/-- The parser takes the lexemes for the entries of a display. -/
def ReadsEntries (source : Text) (xs : List Lexeme) (es : List (Expr × Expr)) : Prop :=
  ∀ n rest, 16 * xs.length ≤ n + 10 → Reads (readEntries source n) (xs ++ rest) (· = es) rest

theorem resumes_dict {es : List (Expr × Expr)} (read : ReadsEntries source xs es) :
    Resumes source .atom (.symbol .openBrace :: xs) (.dict es) :=
  resumes_atom (by simp) fun n t rest known enough _ => by
    rw [readAtom, kind_of_lexeme known]
    exact (read n rest (by omega)).bind fun _ same => same ▸ reads_pure rfl

/-! ## Displays and arguments -/

theorem readsElements_nil (close : Symbol) : ReadsElements source close [.symbol close] [] := by
  intro n rest enough
  obtain ⟨n, rfl⟩ : ∃ k, n = k + 1 := ⟨n - 1, by rw [List.length_singleton] at enough; omega⟩
  rw [readElements]
  exact .accepts (x := .symbol close) rfl (by simp) (reads_pure rfl)

theorem readsElements_last {close : Symbol} (closes : close = .closeParen ∨ close = .closeBracket)
    (h : Derives .conditional xs e) (read : Resumes source .conditional xs e) :
    ReadsElements source close (xs ++ [.symbol close]) [e] := by
  intro n rest enough
  have length := h.length_pos
  rw [List.length_append, List.length_singleton] at enough
  obtain ⟨n, rfl⟩ : ∃ k, n = k + 1 := ⟨n - 1, by omega⟩
  rw [readElements, List.append_assoc]
  have unopened : (Lexeme.symbol close).opens? = none := by obtain rfl | rfl := closes <;> rfl
  have unextended : (Lexeme.symbol close).extends? = none := by obtain rfl | rfl := closes <;> rfl
  refine .refuses (h.kind_ne (x := .symbol close) (by rw [unopened]; rintro _ ⟨⟩) _) (by simp) ?_
  refine (read.reads h (by omega) (stops_of_none unextended _)).bind fun _ same => same ▸ ?_
  refine .refuses (k := .symbol .comma) (by rintro _ ⟨⟩; obtain rfl | rfl := closes <;> decide) (by decide) ?_
  exact (reads_expect (x := .symbol close) (k := .symbol close) rfl (by simp) _).bind fun _ _ => reads_pure rfl

theorem readsElements_cons {close : Symbol} {es : List Expr} (closes : close = .closeParen ∨ close = .closeBracket)
    (h : Derives .conditional xs e) (read : Resumes source .conditional xs e) (others : ReadsElements source close ys es) :
    ReadsElements source close (xs ++ .symbol .comma :: ys) (e :: es) := by
  intro n rest enough
  have length := h.length_pos
  rw [List.length_append, List.length_cons] at enough
  obtain ⟨n, rfl⟩ : ∃ k, n = k + 1 := ⟨n - 1, by omega⟩
  rw [readElements, List.append_assoc]
  have unopened : (Lexeme.symbol close).opens? = none := by obtain rfl | rfl := closes <;> rfl
  refine .refuses (h.kind_ne (x := .symbol close) (by rw [unopened]; rintro _ ⟨⟩) _) (by simp) ?_
  refine (read.reads h (by omega) (stops_of_none rfl _)).bind fun _ same => same ▸ ?_
  refine .accepts (x := .symbol .comma) rfl (by decide) ?_
  exact (others n rest (by omega)).bind fun _ same => same ▸ reads_pure rfl

theorem readsEntries_nil : ReadsEntries source [.symbol .closeBrace] [] := by
  intro n rest enough
  obtain ⟨n, rfl⟩ : ∃ k, n = k + 1 := ⟨n - 1, by rw [List.length_singleton] at enough; omega⟩
  rw [readEntries]
  exact .accepts (x := .symbol .closeBrace) rfl (by decide) (reads_pure rfl)

theorem readsEntries_last {value : Expr} (first : Derives .conditional xs e) (second : Derives .conditional ys value)
    (readFirst : Resumes source .conditional xs e) (readSecond : Resumes source .conditional ys value) :
    ReadsEntries source (xs ++ .symbol .colon :: (ys ++ [.symbol .closeBrace])) [(e, value)] := by
  intro n rest enough
  simp only [List.length_append, List.length_cons, List.length_nil] at enough
  obtain ⟨n, rfl⟩ : ∃ k, n = k + 1 := ⟨n - 1, by omega⟩
  rw [readEntries]
  simp only [List.append_assoc, List.cons_append]
  refine .refuses (first.kind_ne (x := .symbol .closeBrace) (by rintro _ ⟨⟩) _) (by decide) ?_
  refine (readFirst.reads first (by omega) (stops_of_none rfl _)).bind fun _ same => same ▸ ?_
  refine (reads_expect (x := .symbol .colon) rfl (by decide) _).bind fun _ _ => ?_
  refine (readSecond.reads second (by omega) (stops_of_none rfl _)).bind fun _ same => same ▸ ?_
  refine .refuses (k := .symbol .comma) (by rintro _ ⟨⟩; decide) (by decide) ?_
  exact (reads_expect (x := .symbol .closeBrace) rfl (by decide) _).bind fun _ _ => reads_pure rfl

theorem readsEntries_cons {zs : List Lexeme} {value : Expr} {es : List (Expr × Expr)} (first : Derives .conditional xs e)
    (second : Derives .conditional ys value) (readFirst : Resumes source .conditional xs e)
    (readSecond : Resumes source .conditional ys value) (others : ReadsEntries source zs es) :
    ReadsEntries source (xs ++ .symbol .colon :: (ys ++ .symbol .comma :: zs)) ((e, value) :: es) := by
  intro n rest enough
  simp only [List.length_append, List.length_cons] at enough
  obtain ⟨n, rfl⟩ : ∃ k, n = k + 1 := ⟨n - 1, by omega⟩
  rw [readEntries]
  simp only [List.append_assoc, List.cons_append]
  refine .refuses (first.kind_ne (x := .symbol .closeBrace) (by rintro _ ⟨⟩) _) (by decide) ?_
  refine (readFirst.reads first (by omega) (stops_of_none rfl _)).bind fun _ same => same ▸ ?_
  refine (reads_expect (x := .symbol .colon) rfl (by decide) _).bind fun _ _ => ?_
  refine (readSecond.reads second (by omega) (stops_of_none rfl _)).bind fun _ same => same ▸ ?_
  refine .accepts (x := .symbol .comma) rfl (by decide) ?_
  exact (others n rest (by omega)).bind fun _ same => same ▸ reads_pure rfl

/-- The parser takes the lexemes for the arguments of a call. -/
def ReadsArguments (source : Text) (keywordSeen : Bool) (xs : List Lexeme) (arguments : List Expr)
    (keywords : List (Text × Expr)) : Prop :=
  ∀ n rest, 16 * xs.length ≤ n + 10 →
    Reads (readArguments source n keywordSeen) (xs ++ rest) (· = (arguments, keywords)) rest

/-- The parser takes the lexemes for what follows an argument. -/
def ReadsMore (source : Text) (keywordSeen : Bool) (xs : List Lexeme) (arguments : List Expr)
    (keywords : List (Text × Expr)) : Prop :=
  ∀ n rest, 16 * xs.length ≤ n + 10 →
    Reads (readMoreArguments source n keywordSeen) (xs ++ rest) (· = (arguments, keywords)) rest

theorem readsArguments_nil (keywordSeen : Bool) : ReadsArguments source keywordSeen [.symbol .closeParen] [] [] := by
  intro n rest enough
  obtain ⟨n, rfl⟩ : ∃ k, n = k + 1 := ⟨n - 1, by rw [List.length_singleton] at enough; omega⟩
  rw [readArguments]
  exact .accepts (x := .symbol .closeParen) rfl (by decide) (reads_pure rfl)

theorem readsArguments_keyword {keywordSeen : Bool} {name : Text} {arguments : List Expr} {keywords : List (Text × Expr)}
    (first : Derives .conditional xs e) (readFirst : Resumes source .conditional xs e)
    (more : DerivesMore true ys arguments keywords) (readMore : ReadsMore source true ys arguments keywords) :
    ReadsArguments source keywordSeen (.word name :: .symbol .assign :: (xs ++ ys)) arguments ((name, e) :: keywords) := by
  intro n rest enough
  simp only [List.length_cons, List.length_append] at enough
  obtain ⟨n, rfl⟩ : ∃ k, n = k + 1 := ⟨n - 1, by omega⟩
  rw [readArguments]
  simp only [List.cons_append, List.append_assoc]
  refine .refuses (k := .symbol .closeParen) (by rintro _ ⟨⟩; simp [Lexeme.kind]) (by decide) ?_
  refine .looks fun ts same => ?_
  rw [if_pos ((assigned_iff same).2 ⟨_, _, rfl⟩)]
  refine (reads_advance (by simp) _).bind fun t known => ?_
  refine (reads_advance (by simp) _).bind fun _ _ => ?_
  refine (readFirst.reads first (by omega) (more.ends rest).2.1).bind fun _ same => same ▸ ?_
  refine (readMore n rest (by omega)).bind fun _ same => same ▸ reads_pure ?_
  rw [Token.text_of_lexeme known (by simp [Lexeme.kind])]
  rfl

theorem readsArguments_positional {arguments : List Expr} {keywords : List (Text × Expr)}
    (first : Derives .conditional xs e) (readFirst : Resumes source .conditional xs e)
    (more : DerivesMore false ys arguments keywords) (readMore : ReadsMore source false ys arguments keywords) :
    ReadsArguments source false (xs ++ ys) (e :: arguments) keywords := by
  intro n rest enough
  have length := first.length_pos
  have some := (more.ends []).1
  simp only [List.length_append] at enough
  obtain ⟨n, rfl⟩ : ∃ k, n = k + 1 := ⟨n - 1, by omega⟩
  rw [readArguments, List.append_assoc]
  refine .refuses (first.kind_ne (x := .symbol .closeParen) (by rintro _ ⟨⟩) _) (by decide) ?_
  refine .looks fun ts same => ?_
  have unassigned : ¬ ((ahead ts).kind = .name ∧ afterNext ts = .symbol .assign) := by
    rw [assigned_iff same]
    rintro ⟨n, zs, same⟩
    exact first.unassigned (more.ends rest).2.2 same
  rw [if_neg unassigned, if_neg Bool.false_ne_true]
  refine (readFirst.reads first (by omega) (more.ends rest).2.1).bind fun _ same => same ▸ ?_
  exact (readMore n rest (by omega)).bind fun _ same => same ▸ reads_pure rfl

theorem readsMore_close (keywordSeen : Bool) : ReadsMore source keywordSeen [.symbol .closeParen] [] [] := by
  intro n rest enough
  obtain ⟨n, rfl⟩ : ∃ k, n = k + 1 := ⟨n - 1, by rw [List.length_singleton] at enough; omega⟩
  rw [readMoreArguments]
  refine .refuses (k := .symbol .comma) (by rintro _ ⟨⟩; decide) (by decide) ?_
  exact (reads_expect (x := .symbol .closeParen) rfl (by decide) _).bind fun _ _ => reads_pure rfl

theorem readsMore_comma {keywordSeen : Bool} {arguments : List Expr} {keywords : List (Text × Expr)}
    (read : ReadsArguments source keywordSeen xs arguments keywords) :
    ReadsMore source keywordSeen (.symbol .comma :: xs) arguments keywords := by
  intro n rest enough
  rw [List.length_cons] at enough
  obtain ⟨n, rfl⟩ : ∃ k, n = k + 1 := ⟨n - 1, by omega⟩
  rw [readMoreArguments]
  exact .accepts (x := .symbol .comma) rfl (by decide) (read n rest (by omega))

end Expr

/-! ## The whole grammar -/

open Stencil.Expr Stencil.Expr.Parse

mutual

/-- **The parser reads every expression of the grammar.** -/
theorem Derives.resumes (source : Text) {level : Level} {xs : List Lexeme} {e : Expr} :
    Derives level xs e → Resumes source level xs e
  | .tighter loose h => (h.resumes source).tighter h loose
  | .conditional first second third =>
    resumes_conditional first second third (first.resumes source) (second.resumes source) (third.resumes source)
  | .not h => resumes_not h (h.resumes source)
  | .negate h => resumes_negate h (h.resumes source)
  | .identity h => resumes_identity h (h.resumes source)
  | .binary first second => resumes_binary first second (first.resumes source) (second.resumes source)
  | .member first => resumes_member _ first (first.resumes source)
  | .item first second => resumes_item first second (first.resumes source) (second.resumes source)
  | .call first second => resumes_call first (first.resumes source) (second.reads source)
  | .name n => resumes_name n
  | .none | .true | .false => resumes_constant (by simp)
  | .text t ts => resumes_text t ts
  | .integer h => resumes_integer h
  | .decimal h => resumes_decimal h
  | .parenthesised h => resumes_parenthesised h (h.resumes source)
  | .unit => resumes_unit
  | .tuple first others => resumes_tuple first (first.resumes source) (others.reads source (.inl rfl))
  | .list h => resumes_list (h.reads source (.inr rfl))
  | .dict h => resumes_dict (h.reads source)

theorem DerivesElements.reads (source : Text) {close : Symbol} {xs : List Lexeme} {es : List Expr} :
    DerivesElements close xs es → close = .closeParen ∨ close = .closeBracket → ReadsElements source close xs es
  | .nil _, _ => readsElements_nil _
  | .last h, closes => readsElements_last closes h (h.resumes source)
  | .cons first others, closes => readsElements_cons closes first (first.resumes source) (others.reads source closes)

theorem DerivesEntries.reads (source : Text) {xs : List Lexeme} {es : List (Expr × Expr)} :
    DerivesEntries xs es → ReadsEntries source xs es
  | .nil => readsEntries_nil
  | .last first second => readsEntries_last first second (first.resumes source) (second.resumes source)
  | .cons first second others =>
    readsEntries_cons first second (first.resumes source) (second.resumes source) (others.reads source)

theorem DerivesArguments.reads (source : Text) {keywordSeen : Bool} {xs : List Lexeme} {arguments : List Expr}
    {keywords : List (Text × Expr)} :
    DerivesArguments keywordSeen xs arguments keywords → ReadsArguments source keywordSeen xs arguments keywords
  | .nil _ => readsArguments_nil _
  | .keyword first others => readsArguments_keyword first (first.resumes source) others (others.reads source)
  | .positional first others => readsArguments_positional first (first.resumes source) others (others.reads source)

theorem DerivesMore.reads (source : Text) {keywordSeen : Bool} {xs : List Lexeme} {arguments : List Expr}
    {keywords : List (Text × Expr)} :
    DerivesMore keywordSeen xs arguments keywords → ReadsMore source keywordSeen xs arguments keywords
  | .close _ => readsMore_close _
  | .comma h => readsMore_comma (h.reads source)

end

/-- **A source whose lexemes the grammar derives has the tree that it derives.** -/
theorem Expr.parse_of_derives {source : Text} {ts : List Token} {xs : List Lexeme} {e : Expr}
    (scanned : Token.scan source = .ok ts) (lexemes : ts.map Token.lexeme = xs ++ [.endOfInput])
    (h : Derives .conditional xs e) : parse source = .ok e := by
  have count : ts.length = xs.length + 1 := by
    simpa using congrArg List.length lexemes
  obtain ⟨_, rest, read, rfl, left⟩ := (h.resumes source).reads h (n := stepsFor ts.length)
    (by unfold stepsFor; omega) (stops_of_none rfl []) ts lexemes
  have some : (ahead ts).kind ≠ .endOfInput := by
    rw [kind_ahead lexemes]
    obtain ⟨x, ys, rfl, -⟩ := h.starts
    exact h.kind_ne (x := .endOfInput) (by rintro _ ⟨⟩) [.endOfInput] x rfl
  have ended : (ahead rest).kind = .endOfInput := kind_ahead left
  simp only [parse, scanned, ofTokens, some, if_false, read, ended, if_true]

end Stencil
